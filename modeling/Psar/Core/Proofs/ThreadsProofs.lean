import Psar.Core.Threads
import Psar.Core.Proofs.ExclusionProofs
import Psar.Library.Proofs.SimulationProofs

/-!
# Proofs: several threads of one node

The lock status of a page says that somebody has asked for it, not that it has been granted. As long
as the calls are orderly, at most one thread of a node is in a wait of `ask_lock`, and the threads
of the node are to the other nodes like one thread: the network is followed by the one of
`Psar.Core.PageLock`, and its invariant tells that every `GET_LOCK` answers the request of the node
it is sent to.
-/

namespace Threads

open PageLock (CoreInfo LockType Msg Request)

variable {Node T : Type} [DecidableEq Node] [DecidableEq T]

/-! ## One node -/

/-- The threads of a node agree with the thread that they are taken for. -/
structure LocalInv (p : Peer Node T) : Prop where
  /-- `leave_core` has not been called. -/
  present : p.peer.thread = .idle
  /-- At most one thread is in a wait of `ask_lock`. -/
  calls : match p.thread with
    | .semWait => ∃ t, p.call = Function.update (fun _ => .idle) t .semWait
    | .condWait m => ∃ t, p.call = Function.update (fun _ => .idle) t (.condWait m)
    | _ => p.call = fun _ => .idle
  /-- While a request is under way nothing is granted, and nobody has been signalled. -/
  asked : ∀ k, p.request = some k → p.granted = none ∧ p.peer.core.predicate = false
  returned : ∀ r, p.returned = some r → ∃ k, p.granted = some k ∧ atLeast r.mode k = true

section Local

variable {i : Node} {p : Peer Node T}

omit [DecidableEq Node] in
/-- What the threads of a node are taken for, read off what has been asked for and granted. -/
theorem LocalInv.thread_cases (hp : LocalInv p) :
    (p.thread = .idle ∧ p.request = none ∧ p.granted = none ∧ p.call = fun _ => .idle) ∨
    (p.thread = .semWait ∧ p.request = none ∧ p.granted = none ∧
      ∃ t, p.call = Function.update (fun _ => .idle) t .semWait) ∨
    (∃ k, p.thread = .condWait k ∧ p.request = some k ∧ p.granted = none ∧
      p.peer.core.predicate = false ∧
      ∃ t, p.call = Function.update (fun _ => .idle) t (.condWait k)) ∨
    (∃ k, p.thread = .condWait k ∧ p.request = none ∧ p.granted = some k ∧
      p.peer.core.predicate = true ∧
      ∃ t, p.call = Function.update (fun _ => .idle) t (.condWait k)) ∨
    (∃ k, p.thread = .returned k ∧ p.request = none ∧ p.granted = some k ∧
      p.peer.core.predicate = false ∧ p.call = fun _ => .idle) := by
  have hcalls := hp.calls
  cases hrequest : p.request with
  | some k =>
    obtain ⟨hgranted, hpred⟩ := hp.asked k hrequest
    have hth : p.thread = .condWait k := by simp [Peer.thread, hrequest]
    rw [hth] at hcalls
    exact Or.inr (Or.inr (Or.inl ⟨k, hth, rfl, hgranted, hpred, hcalls⟩))
  | none =>
    cases hgranted : p.granted with
    | some k =>
      cases hpred : p.peer.core.predicate with
      | true =>
        have hth : p.thread = .condWait k := by simp [Peer.thread, hrequest, hgranted, hpred]
        rw [hth] at hcalls
        exact Or.inr (Or.inr (Or.inr (Or.inl ⟨k, hth, rfl, rfl, rfl, hcalls⟩)))
      | false =>
        have hth : p.thread = .returned k := by simp [Peer.thread, hrequest, hgranted, hpred]
        rw [hth] at hcalls
        exact Or.inr (Or.inr (Or.inr (Or.inr ⟨k, hth, rfl, rfl, rfl, hcalls⟩)))
    | none =>
      by_cases hmode : p.peer.core.mode = .none
      · have hth : p.thread = .idle := by simp [Peer.thread, hrequest, hgranted, hmode]
        rw [hth] at hcalls
        exact Or.inl ⟨hth, rfl, rfl, hcalls⟩
      · have hth : p.thread = .semWait := by simp [Peer.thread, hrequest, hgranted, hmode]
        rw [hth] at hcalls
        exact Or.inr (Or.inl ⟨hth, rfl, rfl, hcalls⟩)

omit [DecidableEq Node] in
/-- A thread that waits at the condition variable is the one that the threads are taken for. -/
theorem LocalInv.thread_of_condWait (hp : LocalInv p) {t : T} {m : LockType}
    (ht : p.call t = .condWait m) :
    p.thread = .condWait m ∧ p.call = Function.update (fun _ => .idle) t (.condWait m) := by
  have honly : ∀ {t' : T} {x : Call}, p.call = Function.update (fun _ => .idle) t' x →
      t' = t ∧ x = .condWait m := by
    intro t' x hcall
    rw [hcall] at ht
    by_cases htt : t = t'
    · subst htt
      exact ⟨rfl, by simpa using ht⟩
    · simp [htt] at ht
  rcases hp.thread_cases with ⟨-, -, -, hcall⟩ | ⟨-, -, -, t', hcall⟩ |
    ⟨k, hth, -, -, -, t', hcall⟩ | ⟨k, hth, -, -, -, t', hcall⟩ | ⟨k, -, -, -, -, hcall⟩
  case inr.inr.inl | inr.inr.inr.inl =>
    obtain ⟨rfl, hk⟩ := honly hcall
    cases hk
    exact ⟨hth, hcall⟩
  case inr.inl =>
    cases (honly hcall).2
  all_goals
    rw [hcall] at ht
    cases ht

/-- The lock status is that of the mode granted. -/
theorem LocalInv.mode_of_granted (hp : LocalInv p) (hq : PageLock.LocalInv i p.single)
    {k : LockType} (hk : p.granted = some k) : p.peer.core.mode = k.toStatus := by
  have hmode := hq.mode
  rcases hp.thread_cases with ⟨-, -, hg, -⟩ | ⟨-, -, hg, -⟩ | ⟨_, -, -, hg, -⟩ |
    ⟨k', hth, -, hg, -⟩ | ⟨k', hth, -, hg, -⟩
  case inr.inr.inr.inl | inr.inr.inr.inr =>
    rw [hk] at hg
    cases hg
    simpa [Peer.single, hth] using hmode
  all_goals
    rw [hk] at hg
    cases hg

/-- What is granted to the node is granted to its one thread. -/
theorem LocalInv.single_granted (hp : LocalInv p) {k : LockType} (hk : p.granted = some k) :
    p.single.granted k = true := by
  have hrequest : p.request = none := by
    cases hr : p.request with
    | none => rfl
    | some k' =>
      rw [(hp.asked k' hr).1] at hk
      cases hk
  cases hpred : p.peer.core.predicate <;>
    simp [PageLock.Peer.granted, Peer.single, Peer.thread, hrequest, hk, hpred]

/-- The node does not leave, so its calls of `ask_lock` are recorded. -/
theorem LocalInv.returns (hp : LocalInv p) (t : T) (m : LockType) :
    p.returns t m = some ⟨t, m⟩ := by
  simp [Peer.returns, hp.present]

omit [DecidableEq Node] in
theorem LocalInv.unlocked (hp : LocalInv p) : p.peer.locked = false := by
  simp [PageLock.Peer.locked, hp.present]

/-! ### The calls -/

variable (nodeList : List Node) {r : Peer Node T × List (Msg Node)}

/-- The threads of a node that has not locked the page. -/
theorem LocalInv.free (hp : LocalInv p) (hq : PageLock.LocalInv i p.single)
    (hmode : p.peer.core.mode = .none) :
    p.request = none ∧ p.granted = none ∧ p.peer.core.predicate = false ∧
      p.call = fun _ => .idle := by
  have hidle : p.thread = .idle := hq.thread_of_none hmode
  have hpred : p.peer.core.predicate = false := by
    by_contra hset
    obtain ⟨k, hk⟩ := hq.predicate (by simpa [Peer.single] using hset)
    cases hidle.symm.trans hk
  rcases hp.thread_cases with ⟨-, hr, hg, hcall⟩ | ⟨hth, -⟩ | ⟨k, hth, -⟩ | ⟨k, hth, -⟩ |
    ⟨k, hth, -⟩
  case inl => exact ⟨hr, hg, hpred, hcall⟩
  all_goals cases hidle.symm.trans hth

omit [DecidableEq T] in
/-- The one thread calls `ask_lock` on a page that is not locked. -/
theorem single_askLock (hq : PageLock.LocalInv i p.single) (hmode : p.peer.core.mode = .none)
    (m : LockType) :
    PageLock.act nodeList i p.single (.askLock m) =
      some ({ p.single with
        core := (PageLock.askLockBody i p.peer.core m).1
        thread := (PageLock.askLockBody i p.peer.core m).2.1 },
        (PageLock.askLockBody i p.peer.core m).2.2) := by
  have hidle : p.thread = .idle := hq.thread_of_none hmode
  have hstatus := PageLock.toStatus_ne_none m
  simp [PageLock.act, PageLock.askLock, Peer.single, hidle, hmode]

/-- The request is queued, and the thread waits at the semaphore. -/
theorem LocalInv.ask_queued (hp : LocalInv p) (hq : PageLock.LocalInv i p.single)
    (hmode : p.peer.core.mode = .none) (htoken : p.peer.core.haveToken = i)
    (hlist : p.peer.core.request ≠ []) (t : T) :
    PageLock.act nodeList i p.single (.askLock .write) =
        some ((askLockBody i p t .write).1.single, (askLockBody i p t .write).2) ∧
      LocalInv (askLockBody i p t .write).1 := by
  obtain ⟨hrequest, hgranted, -, hcall⟩ := hp.free hq hmode
  have heq : askLockBody i p t .write = ({ p with
      peer := { p.peer with
        core := PageLock.addRequest { p.peer.core with mode := .writing } i .write }
      call := Function.update p.call t .semWait
      returned := none }, []) := by
    simp [askLockBody, PageLock.askLockBody, htoken, hlist, LockType.toStatus]
  rw [single_askLock nodeList hq hmode, heq]
  refine ⟨?_, ⟨hp.present, ?_, ?_, ?_⟩⟩
  · simp [PageLock.askLockBody, Peer.single, Peer.thread, PageLock.addRequest, hrequest, hgranted,
      htoken, hlist, LockType.toStatus]
  · simp only [Peer.thread, hrequest, hgranted, PageLock.addRequest]
    exact ⟨t, by rw [hcall]⟩
  · intro k hk
    rw [hrequest] at hk
    cases hk
  · rintro r ⟨⟩

/-- The page is taken, and the call returns. -/
theorem LocalInv.ask_taken (hp : LocalInv p) (hq : PageLock.LocalInv i p.single)
    (hmode : p.peer.core.mode = .none) (htoken : p.peer.core.haveToken = i) {m : LockType}
    (hempty : m = .write → p.peer.core.request = []) (t : T) :
    PageLock.act nodeList i p.single (.askLock m) =
        some ((askLockBody i p t m).1.single, (askLockBody i p t m).2) ∧
      LocalInv (askLockBody i p t m).1 := by
  obtain ⟨hrequest, -, hpred, hcall⟩ := hp.free hq hmode
  rw [single_askLock nodeList hq hmode]
  cases m with
  | read =>
    have heq : askLockBody i p t .read = ({ p with
        peer := { p.peer with
          core := PageLock.addRequest { p.peer.core with mode := .reading } i .read }
        granted := some .read
        returned := some ⟨t, .read⟩ }, []) := by
      simp [askLockBody, PageLock.askLockBody, htoken, hrequest, hp.returns, LockType.toStatus]
    rw [heq]
    refine ⟨?_, ⟨hp.present, ?_, ?_, ?_⟩⟩
    · simp [PageLock.askLockBody, Peer.single, Peer.thread, PageLock.addRequest, hrequest, htoken,
        hpred, LockType.toStatus]
    · simp [Peer.thread, hrequest, hpred, PageLock.addRequest, hcall]
    · intro k hk
      rw [hrequest] at hk
      cases hk
    · rintro r ⟨⟩
      exact ⟨.read, rfl, rfl⟩
  | write =>
    have heq : askLockBody i p t .write = ({ p with
        peer := { p.peer with core := { p.peer.core with mode := .writing } }
        granted := some .write
        returned := some ⟨t, .write⟩ }, []) := by
      simp [askLockBody, PageLock.askLockBody, htoken, hrequest, hp.returns, hempty,
        LockType.toStatus]
    rw [heq]
    refine ⟨?_, ⟨hp.present, ?_, ?_, ?_⟩⟩
    · simp [PageLock.askLockBody, Peer.single, Peer.thread, hrequest, htoken, hpred, hempty,
        LockType.toStatus]
    · simp [Peer.thread, hrequest, hpred, hcall]
    · intro k hk
      rw [hrequest] at hk
      cases hk
    · rintro r ⟨⟩
      exact ⟨.write, rfl, rfl⟩

/-- The request is sent, and the thread waits. -/
theorem LocalInv.ask_sent (hp : LocalInv p) (hq : PageLock.LocalInv i p.single)
    (hmode : p.peer.core.mode = .none) (htoken : p.peer.core.haveToken ≠ i) (t : T)
    (m : LockType) :
    PageLock.act nodeList i p.single (.askLock m) =
        some ((askLockBody i p t m).1.single, (askLockBody i p t m).2) ∧
      LocalInv (askLockBody i p t m).1 := by
  obtain ⟨-, hgranted, hpred, hcall⟩ := hp.free hq hmode
  have heq : askLockBody i p t m = ({ p with
      peer := { p.peer with core := { p.peer.core with mode := m.toStatus } }
      request := some m
      call := Function.update p.call t (.condWait m)
      returned := none }, [.askLock p.peer.core.haveToken i i m]) := by
    simp [askLockBody, PageLock.askLockBody, htoken, hpred]
  rw [single_askLock nodeList hq hmode, heq]
  refine ⟨?_, ⟨hp.present, ?_, ?_, ?_⟩⟩
  · simp [PageLock.askLockBody, Peer.single, Peer.thread, htoken, hpred]
  · exact ⟨t, by rw [hcall]⟩
  · rintro k ⟨⟩
    exact ⟨hgranted, hpred⟩
  · rintro r ⟨⟩

/-- `ask_lock` on a page that is not locked. -/
theorem LocalInv.askLockBody (hp : LocalInv p) (hq : PageLock.LocalInv i p.single)
    (hmode : p.peer.core.mode = .none) (t : T) (m : LockType) :
    PageLock.act nodeList i p.single (.askLock m) =
        some ((askLockBody i p t m).1.single, (askLockBody i p t m).2) ∧
      LocalInv (askLockBody i p t m).1 := by
  by_cases htoken : p.peer.core.haveToken = i
  · by_cases hqueue : m = .write ∧ p.peer.core.request ≠ []
    · obtain ⟨rfl, hlist⟩ := hqueue
      exact hp.ask_queued nodeList hq hmode htoken hlist t
    · refine hp.ask_taken nodeList hq hmode htoken (fun hwrite => ?_) t
      by_contra hne
      exact hqueue ⟨hwrite, hne⟩
  · exact hp.ask_sent nodeList hq hmode htoken t m

/-- `ask_lock` on a locked page, while no thread of the node waits. -/
theorem LocalInv.askLock_locked (hp : LocalInv p) (hq : PageLock.LocalInv i p.single)
    (hmode : p.peer.core.mode ≠ .none) (hwaiting : ∀ t, p.waiting t = false) {m : LockType}
    (hm : m = .write → p.peer.core.mode ≠ .reading) (t : T) :
    LocalInv { p with returned := p.returns t m } := by
  have hgranted : ∃ k, p.granted = some k := by
    rcases hp.thread_cases with ⟨hth, -⟩ | ⟨-, -, -, t', hcall⟩ | ⟨k, -, -, -, hpred, t', hcall⟩ |
      ⟨k, -, -, hg, -⟩ | ⟨k, -, -, hg, -⟩
    · have hnone := hq.mode
      simp only [Peer.single, hth] at hnone
      exact absurd hnone hmode
    · have hbusy := hwaiting t'
      simp [Peer.waiting, hcall] at hbusy
    · have hbusy := hwaiting t'
      simp [Peer.waiting, hcall, hpred] at hbusy
    · exact ⟨k, hg⟩
    · exact ⟨k, hg⟩
  obtain ⟨k, hk⟩ := hgranted
  refine ⟨hp.present, hp.calls, hp.asked, ?_⟩
  intro r hr
  change p.returns t m = some r at hr
  rw [hp.returns] at hr
  cases hr
  refine ⟨k, hk, ?_⟩
  have hstatus := hp.mode_of_granted hq hk
  cases m with
  | read => rfl
  | write =>
    cases k with
    | read => exact absurd hstatus (hm rfl)
    | write => rfl

theorem LocalInv.resume (hp : LocalInv p) {t : T} (h : resume p t = some r) :
    PageLock.act nodeList i p.single .resume = some (r.1.single, r.2) ∧ LocalInv r.1 := by
  unfold Threads.resume at h
  split at h
  · rename_i m hcall
    split_ifs at h with hpred
    cases h
    obtain ⟨hth, hcalls⟩ := hp.thread_of_condWait hcall
    have hgranted : p.request = none ∧ p.granted = some m := by
      rcases hp.thread_cases with ⟨hth', -⟩ | ⟨hth', -⟩ | ⟨k, -, -, -, hset, -⟩ |
        ⟨k, hth', hr, hg, -⟩ | ⟨k, hth', -⟩
      case inr.inr.inr.inl =>
        cases hth.symm.trans hth'
        exact ⟨hr, hg⟩
      case inr.inr.inl => cases hset.symm.trans hpred.1
      all_goals cases hth.symm.trans hth'
    refine ⟨?_, ⟨hp.present, ?_, ?_, ?_⟩⟩
    · have hact : PageLock.act nodeList i p.single .resume = some ({ p.single with
          core := { p.peer.core with predicate := false }, thread := .returned m }, []) := by
        simp [PageLock.act, Peer.single, hth, hpred.1]
      rw [hact]
      simp [Peer.single, Peer.thread, hgranted]
    · simp [Peer.thread, hgranted, hcalls]
    · intro k hk
      rw [hgranted.1] at hk
      cases hk
    · intro r hr
      change p.returns t m = some r at hr
      rw [hp.returns] at hr
      cases hr
      refine ⟨m, hgranted.2, ?_⟩
      cases m <;> rfl
  · cases h

theorem LocalInv.unlock (hp : LocalInv p) (hq : PageLock.LocalInv i p.single) {t : T}
    (hidle : ∀ t, p.call t = .idle) (h : unlock i p t = some r) :
    PageLock.act nodeList i p.single .unlock = some (r.1.single, r.2) ∧ LocalInv r.1 := by
  unfold Threads.unlock at h
  split_ifs at h
  obtain ⟨x, hx, rfl⟩ := Option.map_eq_some_iff.mp h
  obtain ⟨hfree, -, hpred⟩ := PageLock.unlockInternal_frame hx
  have hreturned : ∃ k, p.thread = .returned k ∧ p.request = none ∧
      p.peer.core.predicate = false := by
    rcases hp.thread_cases with ⟨hth, -⟩ | ⟨-, -, -, t', hcall⟩ | ⟨k, -, -, -, -, t', hcall⟩ |
      ⟨k, -, -, -, -, t', hcall⟩ | ⟨k, hth, hr, -, hpred, -⟩
    case inl =>
      have hnone := hq.mode
      simp only [Peer.single, hth] at hnone
      simp [PageLock.unlockInternal, hnone] at hx
    case inr.inr.inr.inr => exact ⟨k, hth, hr, hpred⟩
    all_goals
      have hbusy := hidle t'
      simp [hcall] at hbusy
  obtain ⟨k, hth, hrequest, hpred'⟩ := hreturned
  refine ⟨?_, ⟨hp.present, ?_, ?_, ?_⟩⟩
  · have hact : PageLock.act nodeList i p.single .unlock =
        some ({ p.single with core := x.1, thread := .idle }, x.2) := by
      simp [PageLock.act, PageLock.unlock, Peer.single, hth, hx]
    rw [hact]
    simp [Peer.single, Peer.thread, hrequest, hfree]
  · simp only [Peer.thread, hrequest, hfree, if_true]
    exact funext hidle
  · intro k hk
    rw [hrequest] at hk
    cases hk
  · rintro r ⟨⟩

/-! ### The handlers -/

omit [DecidableEq T] in
theorem single_waits (p : Peer Node T) (k : LockType) :
    p.single.waits k = true ↔ p.thread = .condWait k ∧ p.peer.core.predicate = false := by
  change (decide (p.thread = .condWait k) && !p.peer.core.predicate) = true ↔ _
  simp

/-- Only `GET_LOCK` signals. -/
theorem handle_predicate {q : PageLock.Peer Node} {m : Msg Node}
    {x : PageLock.Peer Node × List (Msg Node)} (h : PageLock.handle i q m = some x) :
    x.1.core.predicate = if (grantOf m).isSome then true else q.core.predicate := by
  cases m with
  | askLock d sender j k =>
    obtain ⟨-, rfl⟩ := PageLock.underMutex_eq_some h
    exact (PageLock.handleAskLock_frame i q.core j k).2.2
  | getLock d sender j k =>
    obtain ⟨-, rfl⟩ := PageLock.underMutex_eq_some h
    rfl
  | unlock d sender j k =>
    obtain ⟨-, rfl⟩ := PageLock.underMutex_eq_some h
    exact (PageLock.handleUnlock_frame i q.core sender j k).2.2
  | sendState d sender requests =>
    obtain ⟨-, rfl⟩ := PageLock.underMutex_eq_some h
    exact (PageLock.handleSendState_frame q.core requests).2.2
  | delegate d sender delegate =>
    obtain ⟨-, rfl⟩ := PageLock.underMutex_eq_some h
    rfl
  | delegateAck d sender =>
    cases h
    rfl

omit [DecidableEq T] in
/-- The handlers do not look at the threads. -/
theorem handle_single (hq : PageLock.LocalInv i p.single) {m : Msg Node}
    {x : PageLock.Peer Node × List (Msg Node)} (h : PageLock.handle i p.peer m = some x) :
    PageLock.handle i p.single m = some ({ x.1 with thread := p.thread }, x.2) := by
  cases m with
  | delegateAck d sender =>
    cases h
    rfl
  | _ =>
    obtain ⟨-, rfl⟩ := PageLock.underMutex_eq_some h
    simp only [PageLock.handle, PageLock.underMutex, hq.unlocked, Bool.false_eq_true, if_false]
    rfl

theorem LocalInv.handle (hp : LocalInv p) (hq : PageLock.LocalInv i p.single) {m : Msg Node}
    (hw : ∀ k, grantOf m = some k → p.single.waits k = true) (h : handle i p m = some r) :
    PageLock.handle i p.single m = some (r.1.single, r.2) ∧ LocalInv r.1 := by
  obtain ⟨x, hx, rfl⟩ := Option.map_eq_some_iff.mp h
  rw [handle_single hq hx]
  have hpresent : x.1.thread = .idle := (PageLock.handle_thread hx).trans hp.present
  have hmode := PageLock.handle_mode hx
  have hpred := handle_predicate hx
  cases hgrant : grantOf m with
  | none =>
    rw [hgrant] at hpred
    have hthread : ({ p with peer := x.1, returned := none } : Peer Node T).thread = p.thread := by
      simp [Peer.thread, hmode, hpred]
    refine ⟨?_, ⟨hpresent, ?_, ?_, ?_⟩⟩
    · simp [Peer.single, hthread]
    · have hcalls := hp.calls
      rw [← hthread] at hcalls
      exact hcalls
    · intro k hk
      have hasked := hp.asked k hk
      exact ⟨hasked.1, hpred.trans hasked.2⟩
    · rintro r ⟨⟩
  | some k =>
    rw [hgrant] at hpred
    have hwaits := (single_waits p k).mp (hw k hgrant)
    have hrequest : p.request = some k := by
      rcases hp.thread_cases with ⟨hth, -⟩ | ⟨hth, -⟩ | ⟨k', hth, hr, -⟩ | ⟨_, -, -, -, hset, -⟩ |
        ⟨_, hth, -⟩
      case inr.inr.inl =>
        cases hwaits.1.symm.trans hth
        exact hr
      case inr.inr.inr.inl => cases hwaits.2.symm.trans hset
      all_goals cases hwaits.1.symm.trans hth
    have hthread : ({ p with
        peer := x.1, request := none, granted := some k, returned := none } :
        Peer Node T).thread = .condWait k := by
      simp [Peer.thread, hpred]
    simp only [hrequest, Option.isSome_some, and_self, if_true]
    refine ⟨?_, ⟨hpresent, ?_, ?_, ?_⟩⟩
    · simp [Peer.single, hthread, hwaits.1]
    · have hcalls := hp.calls
      rw [hwaits.1] at hcalls
      rw [hthread]
      exact hcalls
    · rintro k' ⟨⟩
    · rintro r ⟨⟩

end Local

/-! ## The network -/

section Run

variable [Fintype Node] {nodeList : Node → List Node} {s s' : Net Node T}

/-- The invariant of the nodes and their threads. -/
structure Inv (s : Net Node T) : Prop where
  local_ : ∀ i, LocalInv (s.node i)
  network : PageLock.Inv (single s)

omit [Fintype Node] [DecidableEq T] in
theorem single_fire (s : Net Node T) (i : Node) (rest : List (Msg Node))
    (r : Peer Node T × List (Msg Node)) :
    single (s.fire i rest r) = (single s).fire i rest (r.1.single, r.2) := by
  unfold single
  rw [Network.project_fire, List.filterMap_some, List.filterMap_some]

/-- A step of the threads of `i` that the one thread follows. -/
theorem Inv.follow (h : Inv s) {i : Node} {a : PageLock.Action Node}
    {r : Peer Node T × List (Msg Node)}
    (hact : PageLock.act (nodeList i) i (s.node i).single a = some (r.1.single, r.2))
    (hl : PageLock.noLeave (.act i a) = true)
    (hok : PageLock.inOrder (single s) (.act i a) = true) (hp : LocalInv r.1) :
    Inv (s.fire i s.msgs r) where
  local_ := Network.forall_node_fire h.local_ hp
  network := by
    have hstep : PageLock.step nodeList (single s) (.act i a) =
        some ((single s).fire i (single s).msgs (r.1.single, r.2)) :=
      Network.step_act hact
    have hmsgs : (single s).msgs = s.msgs := List.filterMap_some
    rw [single_fire, ← hmsgs]
    exact PageLock.inv_step h.network hl hok hstep

/-- A step of the threads of `i` that is none of the one thread. -/
theorem Inv.stutter (h : Inv s) {i : Node} {p : Peer Node T} (hsame : p.single = (s.node i).single)
    (hp : LocalInv p) : Inv (s.fire i s.msgs (p, [])) where
  local_ := Network.forall_node_fire h.local_ hp
  network := by
    have hmsgs : (single s).msgs = s.msgs := List.filterMap_some
    have hsingle : single (s.fire i s.msgs (p, [])) = single s := by
      rw [single_fire, hsame, ← hmsgs]
      exact Network.fire_same (single s) i
    rw [hsingle]
    exact h.network

omit [Fintype Node] in
/-- A hand-over that is safe for the threads is safe for the one thread. -/
theorem LocalInv.safeRelease {i : Node} {p : Peer Node T} (hp : LocalInv p) {fr : Node}
    (h : safeRelease i p fr) : PageLock.safeRelease i p.single fr = true := by
  have hcore : p.single.core = p.peer.core := rfl
  rw [PageLock.safeRelease, hcore]
  rw [Threads.safeRelease] at h
  generalize (PageLock.removeRequest p.peer.core fr).request = list at h ⊢
  cases list with
  | nil => rfl
  | cons r rest =>
    obtain ⟨mode, q⟩ := r
    cases mode with
    | read => rfl
    | write =>
      change (decide (q = i) || (!p.single.waits .write && rest.all fun r => r.mode = .write)) = true
      rcases h with rfl | ⟨hwait, hrest⟩
      · simp
      · have hno : p.single.waits .write = false := by
          by_contra hw
          obtain ⟨hth, hpred⟩ := (single_waits p .write).mp (by simpa using hw)
          have hcalls := hp.calls
          rw [hth] at hcalls
          obtain ⟨t, ht⟩ := hcalls
          have hset := hwait t (by simp [ht])
          rw [hset] at hpred
          cases hpred
        simp only [hno, Bool.not_false, Bool.true_and, Bool.or_eq_true, List.all_eq_true,
          decide_eq_true_eq]
        exact Or.inr hrest

/-- A `GET_LOCK` in flight answers the request of the node it is sent to. -/
theorem Inv.request_of_getLock (h : Inv s) {m : Msg Node} (hm : m ∈ s.msgs) {k : LockType}
    (hk : grantOf m = some k) : (s.node m.dest).single.waits k = true := by
  have hmem : m ∈ (single s).msgs := Network.mem_project_msgs hm rfl
  cases m with
  | getLock d sender j mode =>
    cases hk
    exact h.network.waits_of_pendingMsg hmem (by simp [PageLock.pendingMsg, Msg.dest])
  | _ => cases hk

theorem inv_act (h : Inv s) {i : Node} {a : Action Node T} {r : Peer Node T × List (Msg Node)}
    (hok : orderly s (.act i a)) (hr : act (nodeList i) i (s.node i) a = some r) :
    Inv (s.fire i s.msgs r) := by
  have hp := h.local_ i
  have hq := h.network.local_ i
  cases a with
  | askLock t m =>
    change Threads.askLock i (s.node i) t m = some r at hr
    unfold Threads.askLock at hr
    split_ifs at hr with hcall hfree
    · cases hr
      obtain ⟨hact, hp'⟩ := hp.askLockBody (nodeList i) hq hfree.1 t m
      refine h.follow hact rfl ?_ hp'
      cases m with
      | read => rfl
      | write => simp [PageLock.inOrder, single, Peer.single, hfree.1]
    · cases hr
      have hlocked : (s.node i).peer.core.mode ≠ .none := fun hnone => hfree ⟨hnone, hp.present⟩
      obtain ⟨hwaiting, hm⟩ := hok.resolve_left hlocked
      exact h.stutter rfl (hp.askLock_locked hq hlocked hwaiting hm t)
  | resume t =>
    obtain ⟨hact, hp'⟩ := hp.resume (nodeList i) hr
    exact h.follow hact rfl rfl hp'
  | semWake t =>
    -- nobody posts the semaphore
    have hsem : (s.node i).peer.core.writeAutoLock = 0 := hq.semaphore
    simp [Threads.act, semWake, hsem] at hr
  | unlock t =>
    obtain ⟨hidle, hsafe⟩ := hok
    obtain ⟨hact, hp'⟩ := hp.unlock (nodeList i) hq hidle hr
    refine h.follow hact rfl ?_ hp'
    simp only [PageLock.inOrder, Bool.or_eq_true, decide_eq_true_eq]
    by_cases hmode : (s.node i).peer.core.mode = .reading
    · by_cases htoken : (s.node i).peer.core.haveToken = i
      · exact Or.inr (hp.safeRelease (hsafe hmode htoken))
      · exact Or.inl (Or.inr htoken)
    · exact Or.inl (Or.inl hmode)
  | leaveCore t d => exact hok.elim
  | leaveFinish t =>
    change Threads.leaveFinish i (s.node i) t = some r at hr
    unfold Threads.leaveFinish at hr
    split_ifs at hr
    simp [PageLock.leaveFinish, hp.present] at hr

theorem inv_deliver (h : Inv s) {m : Msg Node} {r : Peer Node T × List (Msg Node)}
    (hok : orderly s (.deliver m)) (hm : m ∈ s.msgs)
    (hr : Threads.handle m.dest (s.node m.dest) m = some r) :
    Inv (s.fire m.dest (s.msgs.erase m) r) := by
  have hp := h.local_ m.dest
  have hq := h.network.local_ m.dest
  obtain ⟨hhandle, hp'⟩ := hp.handle hq (fun k hk => h.request_of_getLock hm hk) hr
  have hmem : m ∈ (single s).msgs := Network.mem_project_msgs hm rfl
  have hstep : PageLock.step (fun _ => []) (single s) (.deliver m) =
      some ((single s).fire m.dest ((single s).msgs.erase m) (r.1.single, r.2)) :=
    Network.step_deliver hmem hhandle
  have hmsgs : (single s).msgs = s.msgs := List.filterMap_some
  refine ⟨Network.forall_node_fire h.local_ hp', ?_⟩
  rw [single_fire, ← hmsgs]
  refine PageLock.inv_step h.network rfl ?_ hstep
  cases m with
  | unlock d sender j k =>
    simp only [PageLock.inOrder, Bool.or_eq_true, decide_eq_true_eq]
    by_cases htoken : (s.node d).peer.core.haveToken = d
    · exact Or.inr (LocalInv.safeRelease (h.local_ d) (hok htoken))
    · exact Or.inl htoken
  | _ => rfl

theorem inv_step {e : Event Node T} (h : Inv s) (hok : orderly s e)
    (hstep : step nodeList s e = some s') : Inv s' := by
  rcases Network.step_cases hstep with ⟨i, a, r, rfl, hr, rfl⟩ | ⟨m, r, rfl, hm, hr, rfl⟩
  · exact inv_act h hok hr
  · exact inv_deliver h hok hm hr

theorem inv_initNet (owner : Node) : Inv (initNet owner : Net Node T) where
  local_ := by
    intro i
    refine ⟨rfl, rfl, ?_, ?_⟩
    · rintro k ⟨⟩
    · rintro r ⟨⟩
  network := PageLock.inv_initNet owner

/-! ## What is granted -/

/-- Nobody has been granted `READ` next to a writer. -/
theorem Inv.granted_ne_read (h : Inv s) {i j : Node} (hi : (s.node i).granted = some .write) :
    (s.node j).granted ≠ some .read := by
  intro hj
  have hwriter := (h.local_ i).single_granted hi
  have hreader : (s.node j).single.granted .read = true := (h.local_ j).single_granted hj
  have hcount : PageLock.readerAt j ((single s).node j) = 1 := by
    change ((s.node j).single.granted .read).toNat = 1
    rw [hreader]
    rfl
  have hnone := h.network.readers_of_writer hwriter
  have hle := Network.le_weight_node PageLock.readerAt PageLock.readerMsg (single s) j
  omega

/-- What a node has been granted, it has among all nodes. -/
theorem Inv.backed (h : Inv s) {i : Node} {k : LockType} (hk : (s.node i).granted = some k) :
    Backed s i k := by
  cases k with
  | write =>
    have hi := (h.local_ i).single_granted hk
    refine ⟨(h.network.local_ i).writer hi, ?_⟩
    intro j hj
    cases hg : (s.node j).granted with
    | none => rfl
    | some k' =>
      cases k' with
      | write =>
        have hj' := (h.local_ j).single_granted hg
        exact absurd (h.network.holds_unique (h.network.holds_of_writer hj')
          (h.network.holds_of_writer hi)) hj
      | read => exact absurd hg (h.granted_ne_read hk)
  | read =>
    intro j hg
    exact h.granted_ne_read hg hk

/-- Several threads: in every run whose steps are orderly, whenever `ask_lock(m)` returns the node
has been granted the page in a mode that is at least `m` and has not released it, and the grant
stands among all nodes. -/
theorem ask_lock_returns_granted {owner : Node} {es : List (Event Node T)}
    (hrun : Network.run (step nodeList) (initNet owner) es = some s)
    (hok : Network.Meets (step nodeList) orderly (initNet owner) es) (i : Node) :
    ReturnsGranted s i := by
  have h := Network.run_invariant (P := Inv) (fun _ _ _ h hok hstep => inv_step h hok hstep)
    (inv_initNet owner) hok hrun
  intro r hr
  obtain ⟨k, hk, hle⟩ := (h.local_ i).returned r hr
  exact ⟨k, hk, hle, (h.local_ i).mode_of_granted (h.network.local_ i) hk, h.backed hk⟩

end Run

/-! ## Two threads -/

/-- The node `owner` reads while the thread `t` of the node `me` asks for the page; when it stops
reading, `me` is answered, and its thread `u` calls `ask_lock` on the locked page. -/
def answeredRun (me owner : Node) (t u : T) : List (Event Node T) :=
  [.act owner (.askLock t .read), .act me (.askLock t .write),
    .deliver (.askLock owner me me .write), .act owner (.unlock t),
    .deliver (.getLock me owner owner .write), .act me (.resume t), .act me (.askLock u .read)]

theorem ask_lock_returns_granted_answeredRun :
    ∃ s, Network.run (step fun _ => []) (initNet 0) (answeredRun (1 : Fin 2) 0 (0 : Fin 2) 1) =
        some s ∧ (s.node 1).returned = some ⟨1, .read⟩ ∧ (s.node 1).granted = some .write ∧
      (s.node 0).granted = none ∧ ReturnsGranted s 1 := by
  have hrun : Network.run (step fun _ => []) (initNet 0)
      (answeredRun (1 : Fin 2) 0 (0 : Fin 2) 1) = some _ := rfl
  exact ⟨_, hrun, rfl, rfl, rfl, ask_lock_returns_granted hrun (by decide) 1⟩

/-- The thread 1 calls `ask_lock` while the thread 0 still waits, and returns at once. -/
theorem ask_lock_returns_early :
    ∃ s, Network.run (step fun _ => []) (initNet (0 : Fin 2))
        [.act 1 (.askLock (0 : Fin 2) .write), .act 1 (.askLock 1 .write)] = some s ∧
      (s.node 1).call 0 = .condWait .write ∧ (s.node 1).returned = some ⟨1, .write⟩ ∧
      (s.node 1).granted = none ∧ ¬ ReturnsGranted s 1 := by
  refine ⟨_, rfl, rfl, rfl, rfl, ?_⟩
  intro h
  obtain ⟨k, hk, -⟩ := h _ rfl
  cases hk

end Threads
