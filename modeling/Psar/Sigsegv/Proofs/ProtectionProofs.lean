import Psar.Sigsegv.Protection
import Psar.Core.Proofs.PageLockProofs
import Psar.DataTransfer.Proofs.PageProofs
import Psar.Library.Proofs.NetworkProofs

/-!
# Proofs: the protection of a page

A page is writable only after a page fault on a write in the current `WRITE` section, which has
invalidated the copies of the other nodes.
-/

namespace Sigsegv

open DataTransfer (memoryLock sendInvalidation)

variable {Node C : Type} [DecidableEq Node] {n : Node} {p p' : Peer Node C}

/-! ## Steps of one node -/

omit [DecidableEq Node] in
/-- A step of the page lock that does not change the lock status. -/
theorem PeerInv.withLock (h : PeerInv n p) {l : PageLock.Peer Node}
    (hmode : l.core.mode = p.lock.core.mode) : PeerInv n (p.withLock l) := by
  constructor
  · intro hprot
    show l.core.mode = _ ∧ _
    rw [hmode]
    exact h.writable hprot
  · intro lockStatus hcall
    show l.core.mode = _
    rw [hmode]
    exact h.status lockStatus hcall

omit [DecidableEq Node] in
/-- A step of the page transfer that does not make the page writable. -/
theorem PeerInv.withData (h : PeerInv n p) {d : DataTransfer.Peer Node C}
    (hd : d.prot = .readWrite → p.data.prot = .readWrite ∧ d.owner = p.data.owner) :
    PeerInv n (p.withData d) := by
  constructor
  · intro hprot
    obtain ⟨hprot', howner⟩ := hd hprot
    show _ ∧ d.owner = n ∧ _
    rw [howner]
    exact h.writable hprot'
  · exact h.status

omit [DecidableEq Node] in
/-- The page is not writable, and the call has no lock status of its own. -/
theorem peerInv_of_not_writable (hprot : p.data.prot ≠ .readWrite)
    (hcall : ∀ lockStatus, p.call ≠ some (.sigsegv lockStatus)) : PeerInv n p :=
  ⟨fun h => absurd h hprot, fun lockStatus h => absurd h (hcall lockStatus)⟩

omit [DecidableEq Node] in
/-- A page is not writable during a call. -/
theorem PeerInv.not_writable (h : PeerInv n p) {c : Call} (hc : p.call = some c) :
    p.data.prot ≠ .readWrite := by
  intro hprot
  have hnone := (h.writable hprot).2.2
  rw [hc] at hnone
  cases hnone

/-- A message of the page transfer never makes the page writable. -/
theorem handle_data_prot {d : DataTransfer.Peer Node C} {m : DataTransfer.Msg Node C}
    (hprot : (DataTransfer.handle n d m).1.prot = .readWrite) :
    d.prot = .readWrite ∧ (DataTransfer.handle n d m).1.owner = d.owner := by
  cases m with
  | invalidation i sender => cases hprot
  | askPage i requester =>
    change (DataTransfer.askPageHandler n d requester).1.prot = _ at hprot
    show _ ∧ (DataTransfer.askPageHandler n d requester).1.owner = _
    rcases DataTransfer.askPageHandler_cases n d requester with ⟨-, b, hb, heq⟩ | ⟨-, heq⟩
    · rw [heq] at hprot
      exact absurd hprot hb
    · rw [heq] at hprot ⊢
      exact ⟨hprot, rfl⟩
  | recvPage i owner page =>
    change (DataTransfer.updatePage d owner page).prot = _ at hprot
    obtain ⟨b, st, hb, heq⟩ := DataTransfer.updatePage_eq d owner page
    rw [heq] at hprot
    exact absurd hprot hb

theorem peerInv_handle (h : PeerInv n p) {m : Msg Node C} {r : Peer Node C × List (Msg Node C)}
    (hr : handle n p m = some r) : PeerInv n r.1 := by
  cases m with
  | lock m =>
    obtain ⟨r', hr', rfl⟩ := Option.map_eq_some_iff.mp hr
    exact h.withLock (PageLock.handle_mode hr')
  | data m =>
    cases hr
    exact h.withData handle_data_prot

omit [DecidableEq Node] in
theorem peerInv_excludeOthers {c : Call} (hc : ∀ lockStatus, c ≠ .sigsegv lockStatus)
    (hr : excludeOthers p c = some p') : PeerInv n p' := by
  unfold excludeOthers at hr
  split at hr
  · cases hr
    apply peerInv_of_not_writable
    · simp [Peer.withData]
    · intro lockStatus hcall
      exact hc lockStatus (Option.some.inj hcall)
  · cases hr

/-- What `sigsev_handler` does after `sync_page`: on a write in a `WRITE` section the page is made
writable and owned, and `INVALIDATION` goes to every node of the list. -/
theorem sigsevReturn_cases {nodeList : List Node}
    {r : Peer Node C × List (DataTransfer.Msg Node C)} (hr : sigsevReturn n nodeList p = some r) :
    ∃ lockStatus, p.call = some (.sigsegv lockStatus) ∧ r.1.call = none ∧ r.1.lock = p.lock ∧
      ((r.1.data.prot = .readWrite ∧ r.1.data.owner = n ∧ lockStatus = .writing ∧
        r.2 = sendInvalidation n nodeList) ∨ r.1.data.prot = .read) := by
  unfold sigsevReturn at hr
  split at hr
  · rename_i lockStatus writing hcall hth
    split at hr
    · rename_i hcond
      cases hr
      exact ⟨lockStatus, hcall, rfl, rfl, Or.inl ⟨rfl, rfl, hcond.2, rfl⟩⟩
    · cases hr
      exact ⟨lockStatus, hcall, rfl, rfl, Or.inr rfl⟩
  · cases hr

theorem peerInv_act (h : PeerInv n p) {nodeList : List Node} {a : Action C}
    {r : Peer Node C × List (Msg Node C)} (hr : act nodeList n p a = some r) : PeerInv n r.1 := by
  cases a with
  | lock k =>
    obtain ⟨p', hp', rfl⟩ := Option.map_eq_some_iff.mp hr
    exact peerInv_excludeOthers (by simp) hp'
  | release =>
    obtain ⟨p', hp', rfl⟩ := Option.map_eq_some_iff.mp hr
    exact peerInv_excludeOthers (by simp) hp'
  | askLock =>
    obtain ⟨r', hr', rfl⟩ := Option.map_eq_some_iff.mp hr
    unfold askLock at hr'
    split at hr'
    · rename_i k hcall
      obtain ⟨r'', -, rfl⟩ := Option.map_eq_some_iff.mp hr'
      exact peerInv_of_not_writable (h.not_writable hcall) (by simp)
    · cases hr'
  | unlock =>
    obtain ⟨r', hr', rfl⟩ := Option.map_eq_some_iff.mp hr
    unfold unlock at hr'
    split at hr'
    · rename_i hcall
      obtain ⟨r'', -, rfl⟩ := Option.map_eq_some_iff.mp hr'
      exact peerInv_of_not_writable (h.not_writable hcall) (by simp)
    · cases hr'
  | resume =>
    obtain ⟨r', hr', rfl⟩ := Option.map_eq_some_iff.mp hr
    obtain ⟨k, -, -, rfl⟩ := PageLock.resume_eq_some hr'
    exact h.withLock rfl
  | semWake =>
    obtain ⟨r', hr', rfl⟩ := Option.map_eq_some_iff.mp hr
    obtain ⟨-, -, rfl⟩ := PageLock.semWake_eq_some hr'
    exact h.withLock rfl
  | sigsevHandler writing =>
    obtain ⟨r', hr', rfl⟩ := Option.map_eq_some_iff.mp hr
    unfold sigsevHandler at hr'
    split at hr'
    · obtain ⟨r'', hr'', rfl⟩ := Option.map_eq_some_iff.mp hr'
      obtain ⟨hne, hprot⟩ := DataTransfer.sigsevHandler_prot hr''
      refine ⟨fun hw => absurd (hprot.symm.trans hw) hne, ?_⟩
      rintro lockStatus ⟨⟩
      exact p.mode_eq.symm
    · cases hr'
  | wake =>
    obtain ⟨d, hd, rfl⟩ := Option.map_eq_some_iff.mp hr
    obtain ⟨writing, -, -, rfl⟩ := DataTransfer.wake_eq_some hd
    exact h.withData fun hprot => ⟨hprot, rfl⟩
  | sigsevReturn =>
    obtain ⟨r', hr', rfl⟩ := Option.map_eq_some_iff.mp hr
    obtain ⟨lockStatus, hcall, hnone, hlock, hcases⟩ := sigsevReturn_cases hr'
    refine ⟨?_, fun lockStatus' hcall' => by simp [hnone] at hcall'⟩
    intro hprot
    rcases hcases with ⟨-, howner, rfl, -⟩ | hread
    · exact ⟨hlock ▸ h.status _ hcall, howner, hnone⟩
    · rw [hread] at hprot
      cases hprot
  | store page =>
    obtain ⟨p', hp', rfl⟩ := Option.map_eq_some_iff.mp hr
    unfold store at hp'
    split at hp'
    · cases hp'
      exact h.withData fun hprot => ⟨hprot, rfl⟩
    · cases hp'
  | load =>
    obtain ⟨p', hp', rfl⟩ := Option.map_eq_some_iff.mp hr
    unfold load at hp'
    split at hp'
    · cases hp'
      exact h
    · cases hp'

/-! ## What makes a page writable -/

theorem handle_prot {m : Msg Node C} {r : Peer Node C × List (Msg Node C)}
    (hr : handle n p m = some r) (hprot : r.1.data.prot = .readWrite) :
    p.data.prot = .readWrite := by
  cases m with
  | lock m =>
    obtain ⟨r', -, rfl⟩ := Option.map_eq_some_iff.mp hr
    exact hprot
  | data m =>
    cases hr
    exact (handle_data_prot hprot).1

omit [DecidableEq Node] in
theorem excludeOthers_prot {c : Call} (hr : excludeOthers p c = some p') : p'.data.prot = .none := by
  unfold excludeOthers at hr
  split at hr
  · cases hr
    rfl
  · cases hr

/-- Only `sigsev_handler` makes the page writable, and it sends the `INVALIDATION`s. -/
theorem act_prot {nodeList : List Node} {a : Action C} {r : Peer Node C × List (Msg Node C)}
    (hr : act nodeList n p a = some r) (hprot : r.1.data.prot = .readWrite) :
    p.data.prot = .readWrite ∨
      (a = .sigsevReturn ∧ r.2 = nodeList.map fun i => .data (.invalidation i n)) := by
  cases a with
  | lock k =>
    obtain ⟨p', hp', rfl⟩ := Option.map_eq_some_iff.mp hr
    exact absurd (hprot.symm.trans (excludeOthers_prot hp')) (by simp)
  | release =>
    obtain ⟨p', hp', rfl⟩ := Option.map_eq_some_iff.mp hr
    exact absurd (hprot.symm.trans (excludeOthers_prot hp')) (by simp)
  | askLock =>
    obtain ⟨r', hr', rfl⟩ := Option.map_eq_some_iff.mp hr
    unfold askLock at hr'
    split at hr'
    · obtain ⟨r'', -, rfl⟩ := Option.map_eq_some_iff.mp hr'
      exact Or.inl hprot
    · cases hr'
  | unlock =>
    obtain ⟨r', hr', rfl⟩ := Option.map_eq_some_iff.mp hr
    unfold unlock at hr'
    split at hr'
    · obtain ⟨r'', -, rfl⟩ := Option.map_eq_some_iff.mp hr'
      exact Or.inl hprot
    · cases hr'
  | resume =>
    obtain ⟨r', -, rfl⟩ := Option.map_eq_some_iff.mp hr
    exact Or.inl hprot
  | semWake =>
    obtain ⟨r', -, rfl⟩ := Option.map_eq_some_iff.mp hr
    exact Or.inl hprot
  | sigsevHandler writing =>
    obtain ⟨r', hr', rfl⟩ := Option.map_eq_some_iff.mp hr
    unfold sigsevHandler at hr'
    split at hr'
    · obtain ⟨r'', hr'', rfl⟩ := Option.map_eq_some_iff.mp hr'
      exact Or.inl ((DataTransfer.sigsevHandler_prot hr'').2.symm.trans hprot)
    · cases hr'
  | wake =>
    obtain ⟨d, hd, rfl⟩ := Option.map_eq_some_iff.mp hr
    obtain ⟨writing, -, -, rfl⟩ := DataTransfer.wake_eq_some hd
    exact Or.inl hprot
  | sigsevReturn =>
    obtain ⟨r', hr', rfl⟩ := Option.map_eq_some_iff.mp hr
    obtain ⟨-, -, -, -, ⟨-, -, -, hmsgs⟩ | hread⟩ := sigsevReturn_cases hr'
    · refine Or.inr ⟨rfl, ?_⟩
      show r'.2.map Msg.data = _
      rw [hmsgs, sendInvalidation, List.map_map]
      rfl
    · exact absurd (hprot.symm.trans hread) (by simp)
  | store page =>
    obtain ⟨p', hp', rfl⟩ := Option.map_eq_some_iff.mp hr
    unfold store at hp'
    split at hp'
    · cases hp'
      exact Or.inl hprot
    · cases hp'
  | load =>
    obtain ⟨p', hp', rfl⟩ := Option.map_eq_some_iff.mp hr
    unfold load at hp'
    split at hp'
    · cases hp'
      exact Or.inl hprot
    · cases hp'

/-! ## Runs -/

section Run

variable [DecidableEq C] {nodeList : Node → List Node} {s₀ s s' : Net Node C}
  {es : List (Event Node C)}

/-- Further steps that are not a call of `ask_lock` by the node. -/
theorem Broadcast.snoc (h : Broadcast nodeList s₀ es n) {e : Event Node C}
    (he : ¬ Event.isAskLock n e) : Broadcast nodeList s₀ (es ++ [e]) n := by
  obtain ⟨es₁, es₂, s₁, s₂, rfl, hrun, hstep, hmsgs, hes⟩ := h
  refine ⟨es₁, es₂ ++ [e], s₁, s₂, by simp, hrun, hstep, hmsgs, ?_⟩
  intro e' he'
  rcases List.mem_append.mp he' with he' | he'
  · exact hes e' he'
  · rw [List.mem_singleton.mp he']
    exact he

/-- The invariant of a run: the nodes, and who has sent `INVALIDATION`s. -/
def RunInv (nodeList : Node → List Node) (s₀ s : Net Node C) (es : List (Event Node C)) : Prop :=
  Network.run (step nodeList) s₀ es = some s ∧
    ∀ n, PeerInv n (s.node n) ∧ ((s.node n).data.prot = .readWrite → Broadcast nodeList s₀ es n)

theorem runInv_step (h : RunInv nodeList s₀ s es) {e : Event Node C}
    (hstep : step nodeList s e = some s') : RunInv nodeList s₀ s' (es ++ [e]) := by
  obtain ⟨hrun, hnodes⟩ := h
  refine ⟨by rw [Network.run_append, hrun]; simp [Network.run, hstep], ?_⟩
  intro n
  obtain ⟨hn, hbroadcast⟩ := hnodes n
  obtain ⟨i, a, r, rfl, hr, rfl⟩ | ⟨m, r, rfl, -, hr, rfl⟩ := Network.step_cases hstep
  · by_cases hi : n = i
    · subst hi
      rw [Network.fire_node_self]
      refine ⟨peerInv_act hn hr, ?_⟩
      intro hprot
      rcases act_prot hr hprot with hprot' | ⟨rfl, hmsgs⟩
      · apply (hbroadcast hprot').snoc
        -- `ask_lock` is called inside `exclude_others`, after `memory_lock`
        intro hask
        cases a with
        | askLock =>
          obtain ⟨r', hr', -⟩ := Option.map_eq_some_iff.mp hr
          unfold askLock at hr'
          split at hr'
          · rename_i k hcall
            exact hn.not_writable hcall hprot'
          · cases hr'
        | _ => exact hask
      · refine ⟨es, [], s, _, rfl, hrun, hstep, ?_, by simp⟩
        rw [Network.fire_msgs, hmsgs]
    · rw [Network.fire_node_ne _ _ _ hi]
      refine ⟨hn, fun hprot => (hbroadcast hprot).snoc ?_⟩
      cases a <;> simp [Event.isAskLock, Ne.symm hi]
  · by_cases hi : n = (protocol nodeList (C := C)).dest m
    · subst hi
      rw [Network.fire_node_self]
      refine ⟨peerInv_handle hn hr, fun hprot => (hbroadcast (handle_prot hr hprot)).snoc ?_⟩
      simp [Event.isAskLock]
    · rw [Network.fire_node_ne _ _ _ hi]
      exact ⟨hn, fun hprot => (hbroadcast hprot).snoc (by simp [Event.isAskLock])⟩

theorem runInv_init (h : Started s₀) : RunInv nodeList s₀ s₀ [] := by
  refine ⟨rfl, fun n => ?_⟩
  obtain ⟨-, -, -, hcall, hprot⟩ := h n
  refine ⟨peerInv_of_not_writable hprot ?_, fun hprot' => absurd hprot' hprot⟩
  intro lockStatus hcall'
  rw [hcall] at hcall'
  cases hcall'

/-- No silent write: in every run, a page that is writable at a node is locked for writing there and
owned by the node, and the node has sent `INVALIDATION` to every node of its list after its last
call of `ask_lock`; in particular before every write. -/
theorem no_silent_write (hstart : Started s₀) (hrun : Network.run (step nodeList) s₀ es = some s) :
    (∀ n, (s.node n).data.prot = .readWrite →
      (s.node n).lock.core.mode = .writing ∧ (s.node n).data.owner = n ∧
        Broadcast nodeList s₀ es n) ∧
    ∀ n page s', step nodeList s (.act n (.store page)) = some s' →
      (s.node n).lock.core.mode = .writing ∧ Broadcast nodeList s₀ es n := by
  obtain ⟨-, hnodes⟩ := Network.run_history (R := RunInv nodeList s₀)
    (fun s es e s' h _ hstep => runInv_step h hstep) (runInv_init hstart)
    (Network.meets_true s₀ es) hrun
  have hwritable : ∀ n, (s.node n).data.prot = .readWrite →
      (s.node n).lock.core.mode = .writing ∧ (s.node n).data.owner = n ∧
        Broadcast nodeList s₀ es n := by
    intro n hprot
    obtain ⟨hn, hbroadcast⟩ := hnodes n
    obtain ⟨hmode, howner, -⟩ := hn.writable hprot
    exact ⟨hmode, howner, hbroadcast hprot⟩
  refine ⟨hwritable, ?_⟩
  intro n page s' hstep
  obtain ⟨r, hr, -⟩ := Option.map_eq_some_iff.mp hstep
  obtain ⟨p', hp', -⟩ := Option.map_eq_some_iff.mp hr
  unfold store at hp'
  split at hp'
  · rename_i hcond
    obtain ⟨hmode, -, hbroadcast⟩ := hwritable n (DataTransfer.Prot.allows_true.mp hcond.2)
    exact ⟨hmode, hbroadcast⟩
  · cases hp'

end Run

/-- The node `b` gets the lock of the page from `a`, faults on a write and fetches the page. -/
def writeRun (a b : Node) (page : C) : List (Event Node C) :=
  [.act b (.lock .write), .act b .askLock, .deliver (.lock (.askLock a b b .write)),
    .deliver (.lock (.getLock b a a .write)), .act b .resume, .act b (.sigsevHandler true),
    .deliver (.data (.askPage a b)), .deliver (.data (.recvPage b a page)), .act b .wake,
    .act b .sigsevReturn]

theorem no_silent_write_writeRun :
    ∃ s s', Network.run (step fun n => if n = 0 then [1] else [0]) (initNet 0 fun _ => 0)
        (writeRun (0 : Fin 2) 1 0) = some s ∧
      step (fun n => if n = 0 then [1] else [0]) s (.act 1 (.store 5)) = some s' ∧
      (s.node 1).lock.core.mode = .writing ∧
      Broadcast (fun n => if n = 0 then [1] else [0]) (initNet 0 fun _ => 0)
        (writeRun (0 : Fin 2) 1 0) 1 := by
  have hrun : Network.run (step fun n => if n = 0 then [1] else [0]) (initNet 0 fun _ => 0)
    (writeRun (0 : Fin 2) 1 0) = some _ := rfl
  have hstart : Started (initNet (0 : Fin 2) fun _ => 0) := by
    unfold Started
    decide
  exact ⟨_, _, hrun, rfl, (no_silent_write hstart hrun).2 1 5 _ rfl⟩

end Sigsegv
