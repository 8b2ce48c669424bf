import Psar.Core.WriteOnly
import Psar.Core.Proofs.ExclusionProofs

/-!
# Proofs: runs with writers only

The token is never lost or duplicated, and a waiting writer is always queued where it will be
served, unless its own request comes back to it.
-/

namespace PageLock

variable {Node : Type}

/-! ## No trace of a reader -/

theorem noLeave_of_writeOnly {e : Event Node} (he : writeOnly e = true) : noLeave e = true := by
  cases e with
  | act i a => cases a <;> simp_all [writeOnly, noLeave]
  | deliver m => rfl

theorem WriteLocal.addRequest {p : Peer Node} (hp : WriteLocal p) (j : Node) :
    ∀ r ∈ (addRequest p.core j .write).request, r.mode = .write := by
  intro r hr
  rcases List.mem_cons.mp hr with rfl | hr
  · rfl
  · exact hp.requests r hr

variable [DecidableEq Node]

theorem writeLocal_askLock {i : Node} {p : Peer Node} (hp : WriteLocal p)
    {r : Peer Node × List (Msg Node)} (h : askLock i p .write = some r) :
    WriteLocal r.1 ∧ ∀ m ∈ r.2, WriteMsg m := by
  rcases (askLock_cases h).2 with ⟨-, rfl⟩ | ⟨-, -, -, rfl⟩ | ⟨-, -, -, -, rfl⟩ | ⟨-, -, -, rfl⟩ |
    ⟨-, -, -, rfl⟩
  · exact ⟨⟨hp.mode, hp.requests⟩, by simp⟩
  · exact ⟨⟨by simp [addRequest, LockType.toStatus], hp.addRequest i⟩, by simp⟩
  · exact ⟨⟨by simp, hp.requests⟩, by simp⟩
  · exact ⟨⟨by simp [LockType.toStatus], hp.requests⟩, by simp [WriteMsg]⟩
  · exact ⟨⟨by simp [LockType.toStatus], hp.requests⟩, by simp [WriteMsg]⟩

theorem writeLocal_unlock {i : Node} {p : Peer Node} (hp : WriteLocal p)
    {r : Peer Node × List (Msg Node)} (h : unlock i p = some r) :
    WriteLocal r.1 ∧ ∀ m ∈ r.2, WriteMsg m := by
  obtain ⟨k, x, -, hx, rfl⟩ := unlock_eq_some h
  cases hmode : p.core.mode with
  | reading => exact absurd hmode hp.mode
  | none => simp [unlockInternal, hmode] at hx
  | writing =>
    cases hreq : p.core.request with
    | nil =>
      simp only [unlockInternal, hmode, hreq, Option.some.injEq] at hx
      subst hx
      exact ⟨⟨by simp, by simp⟩, by simp⟩
    | cons first rest =>
      obtain ⟨fm, fw⟩ := first
      obtain rfl : fm = .write := hp.requests ⟨fm, fw⟩ (by simp [hreq])
      rw [unlockInternal_writing hmode hreq] at hx
      cases hx
      refine ⟨⟨by simp, fun r hr => hp.requests r ?_⟩, by simp [WriteMsg]⟩
      rw [hreq]
      exact List.mem_cons_of_mem _ hr

theorem writeLocal_handleAskLock {i : Node} {p : Peer Node} (hp : WriteLocal p) (j : Node) :
    WriteLocal { p with core := (handleAskLock i p.core j .write).1 } ∧
      ∀ m ∈ (handleAskLock i p.core j .write).2, WriteMsg m := by
  rcases handleAskLock_cases i p.core j .write with ⟨w, -, -, heq⟩ | ⟨w, -, -, heq⟩ |
    ⟨-, -, -, -, -, heq⟩ | ⟨-, -, -, hk, -⟩ | ⟨-, -, -, -, heq⟩ | ⟨-, -, heq⟩
  · rw [heq]
    exact ⟨⟨hp.mode, hp.addRequest j⟩, by simp⟩
  · rw [heq]
    exact ⟨⟨hp.mode, hp.requests⟩, by simp [WriteMsg]⟩
  · rw [heq]
    exact ⟨⟨hp.mode, hp.requests⟩, by simp [WriteMsg]⟩
  · cases hk
  · rw [heq]
    exact ⟨⟨hp.mode, hp.addRequest j⟩, by simp⟩
  · rw [heq]
    exact ⟨⟨hp.mode, hp.requests⟩, by simp [WriteMsg]⟩

omit [DecidableEq Node] in
theorem writeLocal_handleGetLock {i : Node} {p : Peer Node} (hp : WriteLocal p) (sender : Node)
    (k : LockType) : WriteLocal { p with core := handleGetLock i p.core sender k } := by
  unfold handleGetLock
  dsimp only
  split
  · cases k <;> exact ⟨hp.mode, hp.requests⟩
  · exact ⟨hp.mode, hp.requests⟩

section Run

variable [Fintype Node] {nodeList : Node → List Node} {s s' : Net Node}

/-- Without readers, every step is in order. -/
theorem WriteInv.inOrder (h : WriteInv s) {e : Event Node} (he : writeOnly e = true)
    (hstep : step nodeList s e = some s') : inOrder s e = true := by
  rcases Network.step_cases hstep with ⟨i, a, r, rfl, -, -⟩ | ⟨m, r, rfl, hm, -, -⟩
  · have hmode := (h.write i).mode
    cases a with
    | askLock k => cases k <;> simp [PageLock.inOrder, hmode]
    | _ => simp [PageLock.inOrder, hmode]
  · have hmsg := h.writeMsgs m hm
    cases m with
    | unlock d sender j k => exact hmsg.elim
    | _ => rfl

theorem writeInv_step {e : Event Node} (h : WriteInv s) (he : writeOnly e = true)
    (hstep : step nodeList s e = some s') : WriteInv s' := by
  have hinv := inv_step h.toInv (noLeave_of_writeOnly he) (h.inOrder he hstep) hstep
  suffices hw : (∀ i, WriteLocal (s'.node i)) ∧ ∀ m ∈ s'.msgs, WriteMsg m from ⟨hinv, hw.1, hw.2⟩
  rcases Network.step_cases hstep with ⟨i, a, r, rfl, hr, rfl⟩ | ⟨m, r, rfl, hm, hr, rfl⟩
  · have hp := h.write i
    suffices hw : WriteLocal r.1 ∧ ∀ m ∈ r.2, WriteMsg m from
      ⟨Network.forall_node_fire h.write hw.1,
        Network.forall_msgs_fire h.writeMsgs (Network.perm_act _) hw.2⟩
    change act (nodeList i) i (s.node i) a = some r at hr
    cases a with
    | askLock k =>
      cases k with
      | read => simp [writeOnly] at he
      | write => exact writeLocal_askLock hp hr
    | resume =>
      obtain ⟨k, -, -, rfl⟩ := resume_eq_some hr
      exact ⟨⟨hp.mode, hp.requests⟩, by simp⟩
    | semWake =>
      obtain ⟨-, -, rfl⟩ := semWake_eq_some hr
      exact ⟨⟨hp.mode, hp.requests⟩, by simp⟩
    | unlock => exact writeLocal_unlock hp hr
    | leaveCore d => simp [writeOnly] at he
    | leaveFinish =>
      obtain ⟨d, b, hth, -⟩ := leaveFinish_eq_some hr
      have hmode := (h.local_ i).mode
      simp [hth] at hmode
  · have hp := h.write m.dest
    have hmsg := h.writeMsgs m hm
    suffices hw : WriteLocal r.1 ∧ ∀ m ∈ r.2, WriteMsg m from
      ⟨Network.forall_node_fire h.write hw.1,
        Network.forall_msgs_fire h.writeMsgs (Network.perm_deliver hm) hw.2⟩
    change handle m.dest (s.node m.dest) m = some r at hr
    cases m with
    | askLock d sender j k =>
      obtain rfl : k = .write := hmsg
      obtain ⟨-, rfl⟩ := underMutex_eq_some hr
      exact writeLocal_handleAskLock hp j
    | getLock d sender j k =>
      obtain ⟨-, rfl⟩ := underMutex_eq_some hr
      exact ⟨writeLocal_handleGetLock hp sender k, by simp⟩
    | _ => exact hmsg.elim

theorem writeInv_initNet (owner : Node) : WriteInv (initNet owner) where
  toInv := inv_initNet owner
  write := fun i => ⟨by simp [initNet, initCore], by simp [initNet, initCore]⟩
  writeMsgs := by simp [initNet]

theorem writeInv_run {owner : Node} {es : List (Event Node)}
    (hrun : Network.run (step nodeList) (initNet owner) es = some s)
    (hes : ∀ e ∈ es, writeOnly e = true) : WriteInv s := by
  exact Network.run_invariant (fun s e s' h he hstep => writeInv_step h he hstep)
    (writeInv_initNet owner) (Network.meets_of_forall hes _) hrun

/-! ## The token -/

/-- The weight of the token counts the holders and the `GET_LOCK(WRITE)` in flight. -/
theorem weight_token (s : Net Node) :
    s.weight tokenAt tokenMsg = getLocks .write s + holders s := by
  have h1 : ∑ i, tokenAt i (s.node i) = holders s := by
    simp only [holders, Finset.card_filter, tokenAt, Peer.holds]
    apply Finset.sum_congr rfl
    intro i _
    by_cases ht : (s.node i).core.haveToken = i <;> cases (s.node i).blocked <;> simp [ht]
  have h2 : (s.msgs.map tokenMsg).sum = getLocks .write s := by
    unfold getLocks
    induction s.msgs with
    | nil => rfl
    | cons m l ih =>
      rw [List.map_cons, List.sum_cons, List.countP_cons, ih]
      cases m with
      | getLock d sender j k => cases k <;> simp [tokenMsg, Nat.add_comm]
      | _ => simp [tokenMsg]
  rw [Network.Net.weight, h1, h2, Nat.add_comm]

/-- The `GET_LOCK` in flight to a node are pending requests of it. -/
theorem getLocksTo_le (h : WriteInv s) (j : Node) :
    getLocksTo j s ≤ s.weight (pendingAt j .write) (pendingMsg j .write) := by
  apply le_add_left
  have hmsgs := h.writeMsgs
  unfold getLocksTo
  generalize s.msgs = l at hmsgs
  induction l with
  | nil => simp
  | cons m l ih =>
    have hl := ih fun m' hm' => hmsgs m' (List.mem_cons_of_mem _ hm')
    have hm := hmsgs m List.mem_cons_self
    rw [List.map_cons, List.sum_cons, List.countP_cons]
    cases m with
    | getLock d sender j' k =>
      obtain rfl : k = .write := hm
      by_cases hd : d = j <;> simp [pendingMsg, hd] at hl ⊢ <;> omega
    | _ => simp at hl ⊢; omega

/-- In every run with writers only there is one token: a `GET_LOCK(WRITE)` in flight or a node that
names itself and does not wait. A `GET_LOCK` in flight goes to a node that waits for it, no two go
to the same node, and at most one node has the lock. -/
theorem writeOnly_token_conserved {owner : Node} {es : List (Event Node)}
    (hrun : Network.run (step nodeList) (initNet owner) es = some s)
    (hes : ∀ e ∈ es, writeOnly e = true) :
    getLocks .write s + holders s = 1 ∧
    (∀ d sender j k, Msg.getLock d sender j k ∈ s.msgs → (s.node d).blocked = true) ∧
    (∀ j, getLocksTo j s ≤ 1) ∧
    ∀ i j, (s.node i).thread = .returned .write → (s.node j).thread = .returned .write → i = j := by
  have h := writeInv_run hrun hes
  refine ⟨?_, ?_, ?_, ?_⟩
  · rw [← weight_token]
    exact h.token
  · intro d sender j k hm
    have hw : (s.node d).waits k = true := h.waits_of_pendingMsg hm (by simp [pendingMsg])
    cases k <;> simp [Peer.blocked, hw]
  · intro j
    exact (getLocksTo_le h j).trans (h.pending j .write)
  · intro i j hi hj
    have hi' : (s.node i).granted .write = true := by simp [Peer.granted, hi]
    have hj' : (s.node j).granted .write = true := by simp [Peer.granted, hj]
    exact h.holds_unique (h.holds_of_writer hi') (h.holds_of_writer hj')

end Run

/-! ## The queue -/

/-- The node `i` moves from `p` to `p'`, consumes the messages `ms` and sends `out`, and every
request for `WRITE` stays in its place or moves on to a new one. -/
structure Passes (i : Node) (p : Peer Node) (ms : List (Msg Node)) (p' : Peer Node)
    (out : List (Msg Node)) : Prop where
  queue : QueueLocal i p'
  placed : ∀ j, pendingAt j .write i p + (ms.map (pendingMsg j .write)).sum ≤
    pendingAt j .write i p' + (out.map (pendingMsg j .write)).sum

section Passes

variable {i : Node} {p : Peer Node}

/-- A node that does not hold the lock has no request in its list. -/
theorem QueueLocal.request_nil (hq : QueueLocal i p) (h : p.granted .write = false) :
    p.core.request = [] := by
  by_contra hne
  exact absurd ((hq.queue hne).symm.trans h) (by simp)

/-- `ask_lock(WRITE)`: the lock is free at the node, or the request is sent. -/
theorem passes_askLock (hp : LocalInv i p) (hwr : WriteLocal p) (hq : QueueLocal i p)
    {r : Peer Node × List (Msg Node)} (h : askLock i p .write = some r) :
    Passes i p [] r.1 r.2 := by
  obtain ⟨hth, hcases⟩ := askLock_cases h
  by_cases hmode : p.core.mode = .none
  · have hidle := hp.thread_of_none hmode
    have hnil : p.core.request = [] := hq.request_nil (by simp [Peer.granted, hidle])
    rcases hcases with ⟨hne, -⟩ | ⟨-, -, hl, -⟩ | ⟨-, ht, -, -, rfl⟩ | ⟨-, -, hpred, -⟩ |
      ⟨-, ht, hpred, rfl⟩
    · exact absurd hmode hne
    · simp [hnil] at hl
    · refine ⟨⟨by simp [hnil], by simp [hnil], by simp, by simp [Peer.waits], by simp [hnil]⟩,
        ?_⟩
      intro j
      simp [pendingAt, pendingIn, hnil, Peer.waits, hidle]
    · obtain ⟨k, hk⟩ := hp.predicate hpred
      rw [hidle] at hk
      cases hk
    · refine ⟨⟨by simp [hnil], by simp [hnil], by simp, fun _ => ht, by simp [hnil]⟩, ?_⟩
      intro j
      by_cases hj : i = j <;>
        simp [pendingAt, pendingIn, pendingMsg, hnil, Peer.waits, hidle, hpred, hj]
  · -- the page is already locked by the node itself
    rcases hcases with ⟨-, rfl⟩ | ⟨h0, -⟩ | ⟨h0, -⟩ | ⟨h0, -⟩ | ⟨h0, -⟩
    · have hret : p.thread = .returned .write := by
        have hm := hp.mode
        rcases hth with hth | ⟨k, hth⟩
        · rw [hth] at hm
          exact absurd hm hmode
        · rw [hth] at hm
          cases k with
          | read => exact absurd hm hwr.mode
          | write => exact hth
      have heq : ({ p with thread := .returned (p.thread.held .write) } : Peer Node) = p := by
        rw [hret, Thread.held, LockType.max, ← hret]
        simp
      rw [heq]
      exact ⟨hq, fun j => le_rfl⟩
    all_goals exact absurd h0 hmode

/-- `unlock`: the token goes to the node at the head of the list. -/
theorem passes_unlock (hp : LocalInv i p) (hwr : WriteLocal p) (hq : QueueLocal i p)
    {r : Peer Node × List (Msg Node)} (h : unlock i p = some r) : Passes i p [] r.1 r.2 := by
  obtain ⟨k, x, hth, hx, rfl⟩ := unlock_eq_some h
  have hmode : p.core.mode = k.toStatus := by
    have hm := hp.mode
    rwa [hth] at hm
  obtain rfl : k = .write := by
    cases k with
    | read => exact absurd hmode hwr.mode
    | write => rfl
  cases hreq : p.core.request with
  | nil =>
    simp only [unlockInternal, hmode, LockType.toStatus, hreq, Option.some.injEq] at hx
    subst hx
    refine ⟨⟨by simp, by simp, by simp, by simp [Peer.waits], by simp⟩, ?_⟩
    intro j
    simp [pendingAt, pendingIn, hreq, Peer.waits, hth]
  | cons first rest =>
    obtain ⟨fm, fw⟩ := first
    obtain rfl : fm = .write := hwr.requests ⟨fm, fw⟩ (by simp [hreq])
    have hlen := hq.length
    obtain rfl : rest = [] := by simpa [hreq] using hlen
    rw [unlockInternal_writing hmode hreq] at hx
    cases hx
    refine ⟨⟨by simp, by simp, by simp, by simp [Peer.waits], by simp⟩, ?_⟩
    intro j
    by_cases hj : fw = j <;> simp [pendingAt, pendingIn, pendingMsg, hreq, Peer.waits, hth, hj]
    omega

/-- The handler of the `ASK_LOCK` of another node: the request is queued by a node that holds the
lock, answered by one that does not use it, and passed on otherwise. -/
theorem passes_handleAskLock (hp : LocalInv i p) (hwr : WriteLocal p) (hq : QueueLocal i p)
    {d sender j : Node} (hj : i ≠ j) :
    Passes i p [.askLock d sender j .write] { p with core := (handleAskLock i p.core j .write).1 }
      (handleAskLock i p.core j .write).2 := by
  rcases handleAskLock_cases i p.core j .write with ⟨w, hw, hwi, heq⟩ | ⟨w, -, -, heq⟩ |
    ⟨-, ht, hmode, -, hnil, heq⟩ | ⟨-, -, -, hk, -⟩ | ⟨hlw, ht, hmode, -, heq⟩ | ⟨-, ht, heq⟩
  · -- the node has no request of its own
    have hmem : w ∈ p.core.request := List.mem_reverse.mp (List.mem_of_find?_eq_some hw)
    exact absurd hwi (hq.who w hmem)
  · rw [heq]
    exact ⟨hq, fun j' => le_rfl⟩
  · rw [heq]
    have hidle := hp.thread_of_none hmode
    refine ⟨⟨by simp [hnil], by simp [hnil], hq.thread, by simp [Peer.waits, hidle],
      by simp [hnil]⟩, ?_⟩
    intro j'
    simp [pendingAt, pendingIn, pendingMsg, hnil, Peer.waits, hidle]
  · cases hk
  · rw [heq]
    -- the list is empty, and the node holds the lock
    have hnil : p.core.request = [] := by
      by_contra hne
      obtain ⟨w, hw⟩ := List.exists_mem_of_ne_nil _ hne
      have hnone := List.find?_eq_none.mp hlw w (List.mem_reverse.mpr hw)
      simp [hwr.requests w hw] at hnone
    have hgranted : p.granted .write = true := by
      have hm := hp.mode
      cases hth : p.thread with
      | idle =>
        rw [hth] at hm
        exact absurd hnil (hmode hm)
      | semWait => exact absurd hth hq.thread
      | condWait k =>
        rw [hth] at hm
        cases k with
        | read => exact absurd hm hwr.mode
        | write =>
          cases hpred : p.core.predicate with
          | true => simp [Peer.granted, hth, hpred]
          | false => exact absurd ht (hq.waits (by simp [Peer.waits, hth, hpred]))
      | returned k =>
        rw [hth] at hm
        cases k with
        | read => exact absurd hm hwr.mode
        | write => simp [Peer.granted, hth]
      | _ => simp [hth] at hm
    refine ⟨⟨fun _ => hgranted, by simp [hnil], hq.thread, hq.waits, by simp [hnil, hj.symm]⟩,
      ?_⟩
    intro j'
    by_cases hj' : j = j' <;>
      simp [pendingAt, pendingIn, pendingMsg, addRequest, hnil, Peer.waits, hj', hq.thread]
  · rw [heq]
    refine ⟨⟨hq.queue, hq.length, hq.thread, fun _ => hj.symm, hq.who⟩, ?_⟩
    intro j'
    simp [pendingAt, pendingIn, pendingMsg, Peer.waits]

/-- The handler of `GET_LOCK(WRITE)` at a node that waits for it. -/
theorem passes_handleGetLock (hp : LocalInv i p) (hq : QueueLocal i p) {sender j : Node}
    (hw : p.waits .write = true) :
    Passes i p [.getLock i sender j .write]
      { p with core := handleGetLock i p.core sender .write } [] := by
  obtain ⟨hth, hpred⟩ : p.thread = .condWait .write ∧ p.core.predicate = false := by
    simpa [Peer.waits] using hw
  have hmode : p.core.mode = .writing := by
    have hm := hp.mode
    rwa [hth] at hm
  have hnil : p.core.request = [] := hq.request_nil (by simp [Peer.granted, hth, hpred])
  have heq : handleGetLock i p.core sender .write =
      { p.core with haveToken := i, predicate := true } := by
    simp [handleGetLock, hmode]
  rw [heq]
  refine ⟨⟨by simp [hnil], by simp [hnil], by simp [hth], by simp [Peer.waits], by simp [hnil]⟩,
    ?_⟩
  intro j'
  by_cases hj' : i = j' <;> simp [pendingAt, pendingIn, pendingMsg, hnil, Peer.waits, hth, hpred, hj']

theorem passes_resume (hwr : WriteLocal p) (hp : LocalInv i p) (hq : QueueLocal i p) {k : LockType}
    (hth : p.thread = .condWait k) (hpred : p.core.predicate = true) :
    Passes i p [] { p with core := { p.core with predicate := false }, thread := .returned k } [] := by
  obtain rfl : k = .write := by
    have hm := hp.mode
    rw [hth] at hm
    cases k with
    | read => exact absurd hm hwr.mode
    | write => rfl
  refine ⟨⟨by simp [Peer.granted], hq.length, by simp, by simp [Peer.waits], hq.who⟩, ?_⟩
  intro j
  simp [pendingAt, pendingIn, Peer.waits, hth, hpred]

end Passes

section Run

variable [Fintype Node] {nodeList : Node → List Node} {s s' : Net Node}

/-- A move that passes every request on keeps the queue. -/
theorem queueInv_fire (h : QueueInv s) {i : Node} {ms rest : List (Msg Node)}
    (hp : s.msgs.Perm (ms ++ rest)) {r : Peer Node × List (Msg Node)}
    (hpass : Passes i (s.node i) ms r.1 r.2) :
    (∀ j, QueueLocal j ((s.fire i rest r).node j)) ∧
      ∀ j, 1 ≤ (s.fire i rest r).weight (pendingAt j .write) (pendingMsg j .write) := by
  refine ⟨Network.forall_node_fire h.queued hpass.queue, ?_⟩
  intro j
  have h1 := Network.weight_fire (pendingAt j .write) (pendingMsg j .write) (i := i) hp r
  have h2 := hpass.placed j
  have h3 := h.placed j
  omega

theorem queueInv_step {e : Event Node} (h : QueueInv s) (he : writeOnly e = true)
    (hown : notOwn e = true) (hstep : step nodeList s e = some s') : QueueInv s' := by
  have hinv := writeInv_step h.toWriteInv he hstep
  suffices hq : (∀ i, QueueLocal i (s'.node i)) ∧
      ∀ j, 1 ≤ s'.weight (pendingAt j .write) (pendingMsg j .write) from ⟨hinv, hq.1, hq.2⟩
  rcases Network.step_cases hstep with ⟨i, a, r, rfl, hr, rfl⟩ | ⟨m, r, rfl, hm, hr, rfl⟩
  · have hp := h.local_ i
    have hwr := h.write i
    have hq := h.queued i
    suffices hpass : Passes i (s.node i) [] r.1 r.2 from
      queueInv_fire h (Network.perm_act _) hpass
    change act (nodeList i) i (s.node i) a = some r at hr
    cases a with
    | askLock k =>
      cases k with
      | read => simp [writeOnly] at he
      | write => exact passes_askLock hp hwr hq hr
    | resume =>
      obtain ⟨k, hth, hpred, rfl⟩ := resume_eq_some hr
      exact passes_resume hwr hp hq hth hpred
    | semWake => exact absurd (semWake_eq_some hr).1 hq.thread
    | unlock => exact passes_unlock hp hwr hq hr
    | leaveCore d => simp [writeOnly] at he
    | leaveFinish =>
      obtain ⟨d, b, hth, -⟩ := leaveFinish_eq_some hr
      have hmode := hp.mode
      simp [hth] at hmode
  · have hp := h.local_ m.dest
    have hwr := h.write m.dest
    have hq := h.queued m.dest
    have hmsg := h.writeMsgs m hm
    suffices hpass : Passes m.dest (s.node m.dest) [m] r.1 r.2 from
      queueInv_fire h (Network.perm_deliver hm) hpass
    change handle m.dest (s.node m.dest) m = some r at hr
    cases m with
    | askLock d sender j k =>
      obtain rfl : k = .write := hmsg
      obtain ⟨-, rfl⟩ := underMutex_eq_some hr
      exact passes_handleAskLock hp hwr hq (by simpa [notOwn, Msg.dest] using hown)
    | getLock d sender j k =>
      obtain rfl : k = .write := hmsg
      obtain ⟨-, rfl⟩ := underMutex_eq_some hr
      exact passes_handleGetLock hp hq (h.waits_of_pendingMsg hm (by simp [pendingMsg, Msg.dest]))
    | _ => exact hmsg.elim

theorem queueInv_initNet (owner : Node) : QueueInv (initNet owner) where
  toWriteInv := writeInv_initNet owner
  queued := fun i => ⟨by simp [initNet, initCore], by simp [initNet, initCore], by simp [initNet],
    by simp [initNet, Peer.waits], by simp [initNet, initCore]⟩
  placed := by
    intro j
    have h := Network.le_weight_node (pendingAt j .write) (pendingMsg j .write) (initNet owner) j
    have h1 : pendingAt j .write j ((initNet owner).node j) = 1 := by
      simp [initNet, initCore, pendingAt, pendingIn, Peer.waits]
    omega

theorem queueInv_run {owner : Node} {es : List (Event Node)}
    (hrun : Network.run (step nodeList) (initNet owner) es = some s)
    (hes : ∀ e ∈ es, writeOnly e = true ∧ notOwn e = true) : QueueInv s := by
  exact Network.run_invariant (fun s e s' h he hstep => queueInv_step h he.1 he.2 hstep)
    (queueInv_initNet owner) (Network.meets_of_forall hes _) hrun

/-- When nobody holds the lock and no request or answer is in flight, nobody has a pending request.
-/
theorem QueueInv.waits_of_settled (h : QueueInv s) (hm : ∀ m ∈ s.msgs, m.settled = true)
    (hg : ∀ i, (s.node i).granted .write = false) (j : Node) : (s.node j).waits .write = false := by
  have hnil : ∀ i, (s.node i).core.request = [] := fun i => (h.queued i).request_nil (hg i)
  have hmsgs : (s.msgs.map (pendingMsg j .write)).sum = 0 := by
    apply List.sum_eq_zero
    intro n hn
    obtain ⟨m, hmem, rfl⟩ := List.mem_map.mp hn
    have hs := hm m hmem
    cases m <;> simp_all [Msg.settled, pendingMsg]
  have hplaced := h.placed j
  simp only [Network.Net.weight, hmsgs, pendingAt, pendingIn, hnil, List.count_nil, ite_self,
    zero_add, add_zero] at hplaced
  obtain ⟨i, -, hi⟩ := Finset.exists_ne_zero_of_sum_ne_zero
    (Nat.pos_iff_ne_zero.mp (Nat.lt_of_lt_of_le Nat.zero_lt_one hplaced))
  have hij : i = j ∧ ¬ (s.node i).waits .write = true := by
    by_contra hne
    exact hi (if_neg hne)
  obtain ⟨rfl, hi⟩ := hij
  simpa using hi

/-- No stranded writer: in every run with writers only in which no node handles its own `ASK_LOCK`,
once no `ASK_LOCK` and no `GET_LOCK` is in flight and no node has the lock, no node is blocked in
`ask_lock`. -/
theorem no_stranded_writer {owner : Node} {es : List (Event Node)}
    (hrun : Network.run (step nodeList) (initNet owner) es = some s)
    (hes : ∀ e ∈ es, writeOnly e = true ∧ notOwn e = true)
    (hm : ∀ m ∈ s.msgs, m.settled = true) (hret : ∀ i, (s.node i).thread ≠ .returned .write)
    (hwoken : ∀ i, (s.node i).thread = .condWait .write → (s.node i).core.predicate = false)
    (j : Node) : (s.node j).thread ≠ .semWait ∧ ∀ k, (s.node j).thread ≠ .condWait k := by
  have h := queueInv_run hrun hes
  have hg : ∀ i, (s.node i).granted .write = false := by
    intro i
    by_contra hne
    simp only [Peer.granted, Bool.not_eq_false, Bool.or_eq_true, Bool.and_eq_true,
      decide_eq_true_eq] at hne
    rcases hne with hne | ⟨hth, hpred⟩
    · exact hret i hne
    · exact absurd (hpred.symm.trans (hwoken i hth)) (by simp)
  refine ⟨(h.queued j).thread, ?_⟩
  intro k hth
  cases k with
  | read =>
    have hmode := (h.local_ j).mode
    rw [hth] at hmode
    exact (h.write j).mode hmode
  | write =>
    have hw := h.waits_of_settled hm hg j
    simp [Peer.waits, hth, hwoken j hth] at hw

end Run

/-! ## Runs of three nodes -/

/-- The nodes `b` and `c` ask for `WRITE`; the node `a` hands the token over to the node `b`. -/
def writersRun (a b c : Node) : List (Event Node) :=
  [.act b (.askLock .write), .act c (.askLock .write), .deliver (.askLock a b b .write),
    .deliver (.askLock a c c .write)]

theorem writeOnly_token_conserved_writers :
    ∃ s, Network.run (step fun _ => []) (initNet 0) (writersRun (0 : Fin 3) 1 2) = some s ∧
      getLocks .write s + holders s = 1 ∧ (s.node 1).blocked = true ∧ getLocksTo 1 s ≤ 1 ∧
      Msg.askLock 1 0 2 .write ∈ s.msgs := by
  have hrun : Network.run (step fun _ => []) (initNet 0) (writersRun (0 : Fin 3) 1 2) =
      some _ := rfl
  obtain ⟨htoken, hblocked, hto, -⟩ := writeOnly_token_conserved hrun (by decide)
  exact ⟨_, hrun, htoken, hblocked 1 0 0 .write (by decide), hto 1, by decide⟩

/-- The request of the node `a` comes back to it while it waits for the node `b`. -/
def strandedRun (a b : Node) : List (Event Node) :=
  [.act b (.askLock .write), .deliver (.askLock a b b .write), .act a (.askLock .write),
    .deliver (.askLock b a a .write), .deliver (.askLock a b a .write),
    .deliver (.askLock b a a .write), .deliver (.askLock a b a .write),
    .deliver (.getLock b a a .write), .act b .resume, .act b .unlock]

/-- The node 0 ends up in its own list: after the node 1 has released the lock nobody holds it, no
message is in flight and the node 0 waits. -/
theorem stranded_writer :
    ∃ s, Network.run (step fun _ => []) (initNet 0) (strandedRun (0 : Fin 3) 1) = some s ∧
      (∀ e ∈ strandedRun (0 : Fin 3) 1, writeOnly e = true) ∧ s.msgs = [] ∧
      (∀ i, (s.node i).thread ≠ .returned .read ∧ (s.node i).thread ≠ .returned .write) ∧
      (s.node 0).thread = .condWait .write ∧ (s.node 0).core.predicate = false := by
  exact ⟨_, rfl, by decide, by decide, by decide, by decide, by decide⟩

/-- The nodes `b` and `c` get the lock one after the other. -/
def queueRun (a b c : Node) : List (Event Node) :=
  writersRun a b c ++ [.deliver (.getLock b a a .write), .act b .resume,
    .deliver (.askLock b a c .write), .act b .unlock, .deliver (.getLock c b b .write),
    .act c .resume, .act c .unlock]

theorem no_stranded_writer_queue :
    ∃ s, Network.run (step fun _ => []) (initNet 0) (queueRun (0 : Fin 3) 1 2) = some s ∧
      (s.node 1).thread ≠ .condWait .write ∧ (s.node 2).thread ≠ .condWait .write := by
  have hrun : Network.run (step fun _ => []) (initNet 0) (queueRun (0 : Fin 3) 1 2) = some _ := rfl
  have h := no_stranded_writer hrun (by decide) (by decide) (by decide) (by decide)
  exact ⟨_, hrun, (h 1).2 .write, (h 2).2 .write⟩

end PageLock
