import Psar.Core.LocalWriter
import Psar.Core.Proofs.PageLockProofs
import Psar.Library.Proofs.NetworkProofs

/-!
# Proofs: the writer at the node that has the token

As long as the handler of `UNLOCK` never takes the node's own request from the head of the list
while the node waits on `write_auto_lock`, the entry of the waiting node stays in its list.
-/

namespace PageLock

variable {Node : Type} [DecidableEq Node]

omit [DecidableEq Node] in
/-- Only a node that waits on the semaphore has to be remembered. -/
theorem wakeLocal_of_thread {i : Node} {p : Peer Node} (h : p.thread ≠ .semWait)
    (hl : ∀ d b, p.thread ≠ .leaving d b) : WakeLocal i p :=
  ⟨fun hth => absurd hth h, hl⟩

omit [DecidableEq Node] in
/-- A larger list keeps what is remembered. -/
theorem WakeLocal.of_subset {i : Node} {p : Peer Node} (hp : WakeLocal i p) {c : CoreInfo Node}
    (hsem : c.writeAutoLock = p.core.writeAutoLock)
    (hsub : ⟨.write, i⟩ ∈ p.core.request → ⟨.write, i⟩ ∈ c.request) :
    WakeLocal i { p with core := c } := by
  refine ⟨?_, hp.thread⟩
  intro hth
  rcases hp.remembered hth with h | h
  · exact Or.inl (hsem ▸ h)
  · exact Or.inr (hsub h)

theorem wake_askLock {i : Node} {p : Peer Node} {k : LockType} {r : Peer Node × List (Msg Node)}
    (h : askLock i p k = some r) : WakeLocal i r.1 ∧ ∀ m ∈ r.2, WakeMsg m := by
  rcases (askLock_cases h).2 with ⟨-, rfl⟩ | ⟨-, -, -, rfl⟩ | ⟨-, -, -, -, rfl⟩ | ⟨-, -, -, rfl⟩ |
    ⟨-, -, -, rfl⟩
  · exact ⟨wakeLocal_of_thread (by simp) (by simp), by simp⟩
  · cases k with
    | read => exact ⟨wakeLocal_of_thread (by simp) (by simp), by simp⟩
    | write =>
      -- the entry is added before the wait
      exact ⟨⟨fun _ => Or.inr List.mem_cons_self, by simp⟩, by simp⟩
  · exact ⟨wakeLocal_of_thread (by simp) (by simp), by simp⟩
  · exact ⟨wakeLocal_of_thread (by simp) (by simp), by simp [WakeMsg]⟩
  · exact ⟨wakeLocal_of_thread (by simp) (by simp), by simp [WakeMsg]⟩

theorem wakeMsg_handleLocalUnlock (i fr : Node) (c : CoreInfo Node) :
    ∀ m ∈ (handleLocalUnlock i c fr).2, WakeMsg m := by
  rcases handleLocalUnlock_cases i fr c with ⟨-, heq⟩ | ⟨t, -, heq⟩ | ⟨q, t, -, -, heq⟩ <;>
    simp [heq, WakeMsg]

theorem wakeMsg_unlockInternal {i : Node} {c : CoreInfo Node} {x : CoreInfo Node × List (Msg Node)}
    (h : unlockInternal i c = some x) : ∀ m ∈ x.2, WakeMsg m := by
  cases hmode : c.mode with
  | none => simp [unlockInternal, hmode] at h
  | writing =>
    cases hreq : c.request with
    | nil =>
      simp only [unlockInternal, hmode, hreq, Option.some.injEq] at h
      subst h
      simp
    | cons first rest =>
      obtain ⟨fm, fw⟩ := first
      rw [unlockInternal_writing hmode hreq] at h
      cases h
      intro m hm
      cases fm with
      | read =>
        obtain ⟨e, -, rfl⟩ := List.mem_map.mp hm
        trivial
      | write =>
        obtain rfl := List.mem_singleton.mp hm
        trivial
  | reading =>
    by_cases ht : c.haveToken = i
    · simp only [unlockInternal, hmode, ht, if_true, Option.some.injEq] at h
      subst h
      exact wakeMsg_handleLocalUnlock i i c
    · simp only [unlockInternal, hmode, ht, if_false, Option.some.injEq] at h
      subst h
      simpa [WakeMsg] using Ne.symm ht

theorem wake_handleAskLock {i : Node} {p : Peer Node} (hp : WakeLocal i p) (j : Node)
    (k : LockType) : WakeLocal i { p with core := (handleAskLock i p.core j k).1 } ∧
      ∀ m ∈ (handleAskLock i p.core j k).2, WakeMsg m := by
  have hadd : ∀ k', WakeLocal i { p with core := addRequest p.core j k' } := fun k' =>
    hp.of_subset rfl (List.mem_cons_of_mem _)
  rcases handleAskLock_cases i p.core j k with ⟨w, -, -, heq⟩ | ⟨w, -, -, heq⟩ |
    ⟨-, -, -, -, -, heq⟩ | ⟨-, -, -, -, heq⟩ | ⟨-, -, -, -, heq⟩ | ⟨-, -, heq⟩
  · rw [heq]
    exact ⟨hadd k, by simp⟩
  · rw [heq]
    exact ⟨hp, by simp [WakeMsg]⟩
  · rw [heq]
    exact ⟨hp.of_subset rfl id, by simp [WakeMsg]⟩
  · rw [heq]
    exact ⟨hadd .read, by simp [WakeMsg]⟩
  · rw [heq]
    exact ⟨hadd k, by simp⟩
  · rw [heq]
    refine ⟨?_, by simp [WakeMsg]⟩
    cases k <;> exact hp.of_subset rfl id

omit [DecidableEq Node] in
theorem wake_handleGetLock {i : Node} {p : Peer Node} (hp : WakeLocal i p) (sender : Node)
    (k : LockType) : WakeLocal i { p with core := handleGetLock i p.core sender k } := by
  by_cases hmode : p.core.mode = .none
  · exact hp.of_subset (by simp [handleGetLock, hmode]) (by simp [handleGetLock, hmode])
  · cases k <;>
      exact hp.of_subset (by simp [handleGetLock, hmode]) (by simp [handleGetLock, hmode])

/-- The handler of `UNLOCK` removes an entry of another node, and the own entry of the node only
from the head of the list. -/
theorem wake_handleUnlock {i : Node} {p : Peer Node} (hp : WakeLocal i p) {sender j : Node}
    {k : LockType} (hs : sender ≠ i)
    (hhead : p.thread = .semWait → p.core.haveToken = i →
      (removeRequest p.core sender).request.head? ≠ some ⟨.write, i⟩) :
    WakeLocal i { p with core := (handleUnlock i p.core sender j k).1 } ∧
      ∀ m ∈ (handleUnlock i p.core sender j k).2, WakeMsg m := by
  by_cases ht : p.core.haveToken = i
  · have heq : handleUnlock i p.core sender j k = handleLocalUnlock i p.core sender := by
      simp [handleUnlock, ht]
    rw [heq]
    refine ⟨?_, wakeMsg_handleLocalUnlock i sender p.core⟩
    have hstay : (⟨.write, i⟩ : Request Node) ∈ p.core.request →
        ⟨.write, i⟩ ∈ (removeRequest p.core sender).request := fun h =>
      (List.mem_eraseP_of_neg (by simpa using hs.symm)).mpr h
    rcases handleLocalUnlock_cases i sender p.core with ⟨-, heq⟩ | ⟨t, hl, heq⟩ | ⟨q, t, hq, hl, heq⟩
    · rw [heq]
      exact hp.of_subset rfl hstay
    · rw [heq]
      refine ⟨?_, hp.thread⟩
      intro hth
      exact absurd (by simp [hl]) (hhead hth ht)
    · rw [heq]
      refine hp.of_subset rfl ?_
      intro h
      have hmem := hstay h
      rw [hl] at hmem
      rcases List.mem_cons.mp hmem with he | hmem
      · exact absurd (congrArg Request.who he).symm hq
      · exact hmem
  · have heq : handleUnlock i p.core sender j k = (p.core, [.unlock p.core.haveToken i j k]) := by
      simp [handleUnlock, ht]
    rw [heq]
    exact ⟨hp, by simpa [WakeMsg] using Ne.symm ht⟩

/-! ## Steps and runs -/

/-- The invariant of the writers that wait on `write_auto_lock`. -/
structure WakeInv (s : Net Node) : Prop where
  local_ : ∀ i, WakeLocal i (s.node i)
  msgs : ∀ m ∈ s.msgs, WakeMsg m

section Run

variable {nodeList : Node → List Node} {s s' : Net Node}

theorem wakeInv_step {e : Event Node} (h : WakeInv s) (hl : noLeave e = true)
    (hok : headNotOwn s e = true) (hstep : step nodeList s e = some s') : WakeInv s' := by
  rcases Network.step_cases hstep with ⟨i, a, r, rfl, hr, rfl⟩ | ⟨m, r, rfl, hm, hr, rfl⟩
  · suffices hw : WakeLocal i r.1 ∧ ∀ m ∈ r.2, WakeMsg m from
      ⟨Network.forall_node_fire h.local_ hw.1,
        Network.forall_msgs_fire h.msgs (Network.perm_act _) hw.2⟩
    change act (nodeList i) i (s.node i) a = some r at hr
    cases a with
    | askLock k => exact wake_askLock hr
    | resume =>
      obtain ⟨k, -, -, rfl⟩ := resume_eq_some hr
      exact ⟨wakeLocal_of_thread (by simp) (by simp), by simp⟩
    | semWake =>
      obtain ⟨-, -, rfl⟩ := semWake_eq_some hr
      exact ⟨wakeLocal_of_thread (by simp) (by simp), by simp⟩
    | unlock =>
      obtain ⟨k, x, -, hx, rfl⟩ := unlock_eq_some hr
      exact ⟨wakeLocal_of_thread (by simp) (by simp), wakeMsg_unlockInternal hx⟩
    | leaveCore d => simp [noLeave] at hl
    | leaveFinish =>
      obtain ⟨d, b, hth, -⟩ := leaveFinish_eq_some hr
      exact absurd hth ((h.local_ i).thread d b)
  · have hp := h.local_ m.dest
    have hmsg := h.msgs m hm
    suffices hw : WakeLocal m.dest r.1 ∧ ∀ m ∈ r.2, WakeMsg m from
      ⟨Network.forall_node_fire h.local_ hw.1,
        Network.forall_msgs_fire h.msgs (Network.perm_deliver hm) hw.2⟩
    change handle m.dest (s.node m.dest) m = some r at hr
    cases m with
    | askLock d sender j k =>
      obtain ⟨-, rfl⟩ := underMutex_eq_some hr
      exact wake_handleAskLock hp j k
    | getLock d sender j k =>
      obtain ⟨-, rfl⟩ := underMutex_eq_some hr
      exact ⟨wake_handleGetLock hp sender k, by simp⟩
    | unlock d sender j k =>
      obtain ⟨-, rfl⟩ := underMutex_eq_some hr
      apply wake_handleUnlock hp hmsg
      intro hth ht
      have hth' : (s.node d).thread = .semWait := hth
      have ht' : (s.node d).core.haveToken = d := ht
      simpa [headNotOwn, hth', ht', Msg.dest] using hok
    | _ => exact hmsg.elim

/-- A local writer is woken or remembered: in every run in which the handler of `UNLOCK` does not
take the request of a node that waits on `write_auto_lock` from the head of its own list, such a
node finds the semaphore posted or still has its own `WRITE` entry in its list. -/
theorem local_writer_remembered {owner : Node} {es : List (Event Node)}
    (hrun : Network.run (step nodeList) (initNet owner) es = some s)
    (hok : Network.Meets (step nodeList) (fun s e => noLeave e && headNotOwn s e)
      (initNet owner) es) {i : Node} (hi : (s.node i).thread = .semWait) :
    0 < (s.node i).core.writeAutoLock ∨ ⟨.write, i⟩ ∈ (s.node i).core.request := by
  have hinit : WakeInv (initNet owner) :=
    ⟨fun i => wakeLocal_of_thread (by simp [initNet]) (by simp [initNet]), by simp [initNet]⟩
  have h : WakeInv s := by
    refine Network.run_invariant (fun s e s' h hok hstep => ?_) hinit hok hrun
    simp only [Bool.and_eq_true] at hok
    exact wakeInv_step h hok.1 hok.2 hstep
  exact (h.local_ i).remembered hi

end Run

/-- The node `b` reads, and the node `a`, which has the token, waits for it to write. -/
def localWriterRun (a b : Node) : List (Event Node) :=
  [.act b (.askLock .read), .deliver (.askLock a b b .read), .act a (.askLock .write),
    .deliver (.getLock b a a .read), .act b .resume, .act b .unlock]

theorem local_writer_remembered_waiting :
    ∃ s, Network.run (step fun _ => []) (initNet 0) (localWriterRun (0 : Fin 2) 1) = some s ∧
      (s.node 0).thread = .semWait ∧
      (0 < (s.node 0).core.writeAutoLock ∨ ⟨.write, 0⟩ ∈ (s.node 0).core.request) := by
  have hrun : Network.run (step fun _ => []) (initNet 0) (localWriterRun (0 : Fin 2) 1) =
      some _ := rfl
  exact ⟨_, hrun, by decide, local_writer_remembered hrun (by decide) (by decide)⟩

/-- When the `UNLOCK` of the node 1 is handled, the request of the node 0 is taken from the list and
nobody posts the semaphore. -/
theorem local_writer_forgotten :
    ∃ s, Network.run (step fun _ => []) (initNet 0)
        (localWriterRun (0 : Fin 2) 1 ++ [.deliver (.unlock 0 1 1 .read)]) = some s ∧
      (∀ e ∈ localWriterRun (0 : Fin 2) 1, noLeave e = true) ∧ (s.node 0).thread = .semWait ∧
      s.msgs = [] ∧
      ¬ (0 < (s.node 0).core.writeAutoLock ∨ ⟨.write, 0⟩ ∈ (s.node 0).core.request) := by
  exact ⟨_, rfl, by decide, by decide, by decide, by decide⟩

end PageLock
