import Psar.Sigsegv.Coherence
import Psar.Sigsegv.Proofs.ProtectionProofs
import Psar.Core.Proofs.ExclusionProofs
import Psar.DataTransfer.Proofs.CoherenceProofs
import Psar.Library.Proofs.SimulationProofs

/-!
# Proofs: the page lock and the page transfer together

A run of the two together is followed by a run of the page transfer in which the lock layer keeps
its promise, because the page lock does. The content of the copies is then a matter of the page
transfer alone.
-/

namespace Sigsegv

open PageLock (LockType)
open DataTransfer (memoryLock sendInvalidation)

variable {Node C : Type} [DecidableEq Node] {n : Node} {p : Peer Node C}
  {d : DataTransfer.Peer Node C}

/-! ## One node -/

omit [DecidableEq Node] in
theorem of_running (h : p.running = true) :
    p.call = none ∧ p.data.thread = .running ∧ waiting p.lock.thread = false := by
  simp only [Peer.running, Bool.and_eq_true, decide_eq_true_eq] at h
  obtain ⟨⟨hcall, hth⟩, hlock⟩ := h
  refine ⟨hcall, hth, ?_⟩
  cases hl : p.lock.thread <;> simp [hl] at hlock <;> rfl

omit [DecidableEq Node] in
/-- The two agree on everything while the page is locked and not being unlocked. -/
theorem Agrees.eq_data (h : Agrees p d) (hw : waiting p.lock.thread = false)
    (hmode : p.data.mode ≠ .none) (hcall : p.call ≠ some .unlock) : d = p.data := by
  have hth : d.thread = p.data.thread := by simpa [hw] using h.thread
  calc d = ⟨d.owner, d.state, d.predicate, d.content, d.prot, d.mode, d.thread⟩ := rfl
    _ = p.data := by
      rw [h.owner, h.state, h.predicate, h.content, h.mode, hth, h.prot hmode hcall]

omit [DecidableEq Node] in
/-- A step of the page lock that changes neither the lock status nor whether the thread waits. -/
theorem Agrees.withLock (h : Agrees p d) {l : PageLock.Peer Node}
    (hmode : l.core.mode = p.lock.core.mode) (hw : waiting l.thread = waiting p.lock.thread) :
    Agrees (p.withLock l) d where
  owner := h.owner
  state := h.state
  predicate := h.predicate
  content := h.content
  mode := h.mode.trans (p.mode_eq.trans hmode.symm)
  thread := by
    show d.thread = if waiting l.thread then _ else _
    rw [hw]
    exact h.thread
  prot := fun hne hcall => h.prot (fun h0 => hne (hmode.trans (p.mode_eq.symm.trans h0))) hcall

omit [DecidableEq Node] in
theorem CallLocal.withLock (h : CallLocal p) {l : PageLock.Peer Node}
    (hmode : l.core.mode = p.lock.core.mode) (hw : waiting l.thread = true → p.call = none) :
    CallLocal (p.withLock l) where
  running := h.running
  waits := hw
  asking := fun k hk =>
    ⟨(h.asking k hk).1, fun hm => (h.asking k hk).2 (p.mode_eq.trans (hmode.symm.trans hm))⟩
  unlocking := h.unlocking

/-! ## The steps of the application thread -/

/-- The page transfer follows a step of the application thread, after which the node is `r.1`. -/
def Followed [DecidableEq C] (nodeList : Node → List Node) (n : Node)
    (d : DataTransfer.Peer Node C) (as : List (DataTransfer.Action C))
    (r : Peer Node C × List (Msg Node C)) : Prop :=
  ∃ d', Network.actRun (DataTransfer.protocol nodeList) n d as =
      some (d', r.2.filterMap Msg.data?) ∧ Agrees r.1 d' ∧ CallLocal r.1

section Act

variable [DecidableEq C] {nodeList : Node → List Node} {p' : Peer Node C}

omit [DecidableEq Node] [DecidableEq C] in
theorem excludeOthers_eq_some {c : Call} (h : excludeOthers p c = some p') :
    p.running = true ∧ p' = { p.withData (memoryLock p.data) with call := some c } := by
  unfold excludeOthers at h
  split at h
  · rename_i hrun
    exact ⟨hrun, by simpa using h.symm⟩
  · cases h

omit [DecidableEq Node] [DecidableEq C] in
theorem filterMap_data_lock (l : List (PageLock.Msg Node)) :
    (l.map (Msg.lock (C := C))).filterMap Msg.data? = [] := by
  simp [Msg.data?]

omit [DecidableEq Node] [DecidableEq C] in
theorem filterMap_data_data (l : List (DataTransfer.Msg Node C)) :
    (l.map Msg.data).filterMap Msg.data? = l := by
  simp [List.filterMap_map, Function.comp_def, Msg.data?]

/-- `exclude_others` of `lock_read` and `lock_write`, up to the call of `ask_lock`. -/
theorem followed_lock (h : Agrees p d) {k : LockType}
    (hr : excludeOthers p (.askLock k) = some p') :
    Followed nodeList n d (dataActions n p (.lock k)) (p', []) := by
  obtain ⟨hrun, rfl⟩ := excludeOthers_eq_some hr
  obtain ⟨hcall, hth, hw⟩ := of_running hrun
  have hlocal : CallLocal { p.withData (memoryLock p.data) with call := some (.askLock k) } :=
    ⟨by simp, fun hwait => by simp [Peer.withData, hw] at hwait, fun _ _ => ⟨hth, fun _ => rfl⟩,
      by simp⟩
  by_cases hmode : p.data.mode = .none
  · -- the page transfer takes its step when `ask_lock` is called
    refine ⟨d, by simp [dataActions, hmode], ?_, hlocal⟩
    refine ⟨h.owner, h.state, h.predicate, h.content, h.mode.trans p.mode_eq, h.thread, ?_⟩
    intro hne
    exact absurd (p.mode_eq.symm.trans hmode) hne
  · obtain rfl := h.eq_data hw hmode (by simp [hcall])
    refine ⟨memoryLock p.data, ?_, ?_, hlocal⟩
    · rw [dataActions, if_neg hmode]
      exact Network.actRun_single (by
        simp [DataTransfer.protocol, DataTransfer.act, DataTransfer.lock, hth, hmode])
    · exact ⟨rfl, rfl, rfl, rfl, p.mode_eq, h.thread, fun _ _ => rfl⟩

/-- `exclude_others` of `unlock_read` and `unlock_write`, up to the call of `unlock`. -/
theorem followed_release (h : Agrees p d) (hr : excludeOthers p .unlock = some p') :
    Followed nodeList n d (dataActions n p .release) (p', []) := by
  obtain ⟨hrun, rfl⟩ := excludeOthers_eq_some hr
  obtain ⟨hcall, hth, hw⟩ := of_running hrun
  refine ⟨d, rfl, ?_, ?_⟩
  · exact ⟨h.owner, h.state, h.predicate, h.content, h.mode.trans p.mode_eq, h.thread,
      fun _ hne => absurd rfl hne⟩
  · exact ⟨by simp, fun hwait => by simp [Peer.withData, hw] at hwait, by simp, fun _ => hth⟩

omit [DecidableEq C] in
/-- `ask_lock` on a page that is not locked returns with the lock, or waits for it. -/
theorem askLock_free {k : LockType} {r : PageLock.Peer Node × List (PageLock.Msg Node)}
    (hmode : p.lock.core.mode = .none) (hr : PageLock.askLock n p.lock k = some r) :
    r.1.core.mode = k.toStatus ∧
      ((returnsAtOnce n p k = true ∧ r.1.thread = .returned k) ∨
        (returnsAtOnce n p k = false ∧ waiting r.1.thread = true)) := by
  obtain ⟨-, ⟨hne, -⟩ | ⟨-, ht, hl, rfl⟩ | ⟨-, ht, hl, rfl, rfl⟩ | ⟨-, ht, hpred, rfl⟩ |
    ⟨-, ht, hpred, rfl⟩⟩ := PageLock.askLock_cases hr
  · exact absurd hmode hne
  · refine ⟨rfl, ?_⟩
    cases k with
    | read => exact Or.inl ⟨by simp [returnsAtOnce, PageLock.askLockBody, ht], rfl⟩
    | write =>
      have hl' : p.lock.core.request ≠ [] := by simpa using hl
      exact Or.inr ⟨by simp [returnsAtOnce, PageLock.askLockBody, ht, hl'], rfl⟩
  · exact ⟨rfl, Or.inl ⟨by simp [returnsAtOnce, PageLock.askLockBody, ht, hl], rfl⟩⟩
  · exact ⟨rfl, Or.inl ⟨by simp [returnsAtOnce, PageLock.askLockBody, ht, hpred], rfl⟩⟩
  · exact ⟨rfl, Or.inr ⟨by simp [returnsAtOnce, PageLock.askLockBody, ht, hpred], rfl⟩⟩

theorem followed_askLock (hl : CallLocal p) (h : Agrees p d)
    {r : Peer Node C × List (PageLock.Msg Node)} (hr : askLock n p = some r) :
    Followed nodeList n d (dataActions n p .askLock) (r.1, r.2.map .lock) := by
  unfold askLock at hr
  split at hr
  · rename_i k hcall
    obtain ⟨l, hl', rfl⟩ := Option.map_eq_some_iff.mp hr
    obtain ⟨hth, hprot⟩ := hl.asking k hcall
    have hlocal : CallLocal { p.withLock l.1 with call := none } :=
      ⟨fun _ => hth, fun _ => rfl, by simp, by simp⟩
    have hw : waiting p.lock.thread = false := by
      by_contra hw
      simp [hl.waits (by simpa using hw)] at hcall
    have hd : d.thread = .running := by simpa [hw, hth] using h.thread
    by_cases hmode : p.data.mode = .none
    · have hlock : (DataTransfer.protocol nodeList).act n d (.lock k) =
          some ({ memoryLock d with mode := k.toStatus, thread := .asking }, []) := by
        simp [DataTransfer.protocol, DataTransfer.act, DataTransfer.lock, hd, h.mode, hmode]
      obtain ⟨hk, ⟨honce, hret⟩ | ⟨honce, hwait⟩⟩ := askLock_free (p.mode_eq.symm.trans hmode) hl'
      · have hgrant : (DataTransfer.protocol nodeList).act n
            { memoryLock d with mode := k.toStatus, thread := .asking } .grant =
            some ({ memoryLock d with mode := k.toStatus, thread := .running }, []) := rfl
        refine ⟨{ memoryLock d with mode := k.toStatus, thread := .running }, ?_, ?_, hlocal⟩
        · rw [dataActions, hcall, filterMap_data_lock]
          simp only [hmode, honce, if_true]
          exact Network.actRun_pair hlock hgrant
        · refine ⟨h.owner, h.state, h.predicate, h.content, hk.symm, ?_, fun _ _ => ?_⟩
          · simp [Peer.withLock, hret, waiting, hth]
          · exact (hprot hmode).symm
      · refine ⟨{ memoryLock d with mode := k.toStatus, thread := .asking }, ?_, ?_, hlocal⟩
        · rw [dataActions, hcall, filterMap_data_lock]
          simp only [hmode, honce, if_true]
          exact Network.actRun_single hlock
        · refine ⟨h.owner, h.state, h.predicate, h.content, hk.symm, ?_, fun _ _ => ?_⟩
          · simp [Peer.withLock, hwait]
          · exact (hprot hmode).symm
    · -- the page is locked already, and `ask_lock` leaves it as it is
      have hne : p.lock.core.mode ≠ .none := fun h0 => hmode (p.mode_eq.trans h0)
      obtain ⟨-, ⟨-, rfl⟩ | ⟨h0, -⟩ | ⟨h0, -⟩ | ⟨h0, -⟩ | ⟨h0, -⟩⟩ := PageLock.askLock_cases hl'
      · refine ⟨d, ?_, ?_, hlocal⟩
        · rw [dataActions, hcall]
          simp [hmode]
        · obtain rfl := h.eq_data hw hmode (by simp [hcall])
          refine ⟨rfl, rfl, rfl, rfl, p.mode_eq, ?_, fun _ _ => rfl⟩
          simp [Peer.withLock, waiting]
      all_goals exact absurd h0 hne
  · cases hr

theorem followed_unlock (hl : CallLocal p) (h : Agrees p d)
    {r : Peer Node C × List (PageLock.Msg Node)} (hr : unlock n p = some r) :
    Followed nodeList n d (dataActions n p .unlock) (r.1, r.2.map .lock) := by
  unfold unlock at hr
  split at hr
  · rename_i hcall
    obtain ⟨l, hl', rfl⟩ := Option.map_eq_some_iff.mp hr
    obtain ⟨k, x, hret, hx, rfl⟩ := PageLock.unlock_eq_some hl'
    have hx' := (PageLock.unlockInternal_frame hx).1
    have hne : p.lock.core.mode ≠ .none := by
      intro h0
      simp [PageLock.unlockInternal, h0] at hx
    have hth := hl.unlocking hcall
    have hd : d.thread = .running := by simpa [hret, waiting, hth] using h.thread
    have hmode : d.mode ≠ .none := by
      rw [h.mode, p.mode_eq]
      exact hne
    refine ⟨{ memoryLock d with mode := .none }, ?_, ?_, ?_⟩
    · rw [filterMap_data_lock]
      exact Network.actRun_single (by
        simp [DataTransfer.protocol, DataTransfer.act, DataTransfer.unlock, hd, hmode])
    · refine ⟨h.owner, h.state, h.predicate, h.content, hx'.symm, ?_, ?_⟩
      · simpa [Peer.withLock, waiting, hth] using hd
      · intro h0
        exact absurd hx' h0
    · exact ⟨fun _ => hth, fun _ => rfl, by simp, by simp⟩
  · cases hr

/-- The lock is granted to a thread that waits for it. -/
theorem followed_grant (hl : CallLocal p) (h : Agrees p d) {l : PageLock.Peer Node}
    (hw : waiting p.lock.thread = true) (hw' : waiting l.thread = false)
    (hmode : l.core.mode = p.lock.core.mode) :
    Followed nodeList n d [.grant] (p.withLock l, []) := by
  have hth := hl.running (hl.waits hw)
  have hd : d.thread = .asking := by simpa [hw] using h.thread
  refine ⟨{ d with thread := .running }, ?_, ?_, hl.withLock hmode (by simp [hw'])⟩
  · exact Network.actRun_single (by
      simp [DataTransfer.protocol, DataTransfer.act, DataTransfer.grant, hd])
  · refine ⟨h.owner, h.state, h.predicate, h.content,
      h.mode.trans (p.mode_eq.trans hmode.symm), ?_, ?_⟩
    · simp [Peer.withLock, hw', hth]
    · intro hne hcall
      exact h.prot (fun h0 => hne (hmode.trans (p.mode_eq.symm.trans h0))) hcall

omit [DecidableEq Node] [DecidableEq C] in
/-- A step of the page transfer that the application thread takes in `sigsev_handler`. -/
theorem callLocal_sigsegv {d' : DataTransfer.Peer Node C} {lockStatus : PageLock.LockStatus}
    (hw : waiting p.lock.thread = false) :
    CallLocal { p.withData d' with call := some (.sigsegv lockStatus) } :=
  ⟨by simp, fun hwait => by simp [Peer.withData, hw] at hwait, by simp, by simp⟩

theorem followed_sigsevHandler (h : Agrees p d) {writing : Bool}
    {r : Peer Node C × List (DataTransfer.Msg Node C)} (hr : sigsevHandler n p writing = some r) :
    Followed nodeList n d (dataActions n p (.sigsevHandler writing)) (r.1, r.2.map .data) := by
  unfold sigsevHandler at hr
  split at hr
  · rename_i hrun
    obtain ⟨x, hx, rfl⟩ := Option.map_eq_some_iff.mp hr
    obtain ⟨hcall, hth, hw⟩ := of_running hrun
    obtain ⟨-, hmode, -, hcases⟩ := DataTransfer.sigsevHandler_cases hx
    obtain rfl := h.eq_data hw hmode (by simp [hcall])
    refine ⟨x.1, ?_, ?_, callLocal_sigsegv hw⟩
    · rw [filterMap_data_data]
      exact Network.actRun_single hx
    · rcases hcases with ⟨-, rfl⟩ | ⟨-, -, rfl⟩ <;>
        exact ⟨rfl, rfl, rfl, rfl, p.mode_eq, by simp [Peer.withData, hw], fun _ _ => rfl⟩
  · cases hr

theorem followed_wake (hl : CallLocal p) (h : Agrees p d) {x : DataTransfer.Peer Node C}
    (hx : DataTransfer.wake p.data = some x) :
    Followed nodeList n d (dataActions n p .wake) (p.withData x, []) := by
  obtain ⟨writing, hth, hpred, rfl⟩ := DataTransfer.wake_eq_some hx
  have hcall : p.call ≠ none := by
    intro hcall
    simp [hl.running hcall] at hth
  have hw : waiting p.lock.thread = false := by
    by_contra hw
    exact hcall (hl.waits (by simpa using hw))
  have hd : d.thread = .syncing writing := by simpa [hw, hth] using h.thread
  have hpred' : d.predicate = true := h.predicate.trans hpred
  refine ⟨{ d with predicate := true, thread := .synced writing }, ?_, ?_, ?_⟩
  · exact Network.actRun_single (by
      simp [DataTransfer.protocol, DataTransfer.act, DataTransfer.wake, hd, hpred'])
  · refine ⟨h.owner, h.state, hpred.symm, h.content, h.mode.trans p.mode_eq, ?_, ?_⟩
    · simp [Peer.withData, hw]
    · intro hne
      exact h.prot fun h0 => hne (p.mode_eq.symm.trans h0)
  · refine ⟨fun hnone => absurd hnone hcall, fun hwait => ?_, ?_, ?_⟩
    · simp [Peer.withData, hw] at hwait
    · intro k hk
      simp [(hl.asking k hk).1] at hth
    · intro hunlock
      simp [hl.unlocking hunlock] at hth

theorem followed_sigsevReturn (hp : PeerInv n p) (hl : CallLocal p) (h : Agrees p d)
    {r : Peer Node C × List (DataTransfer.Msg Node C)}
    (hr : sigsevReturn n (nodeList n) p = some r) :
    Followed nodeList n d (dataActions n p .sigsevReturn) (r.1, r.2.map .data) := by
  unfold sigsevReturn at hr
  split at hr
  · rename_i lockStatus writing hcall hth
    have hmode : p.data.mode = lockStatus := p.mode_eq.trans (hp.status _ hcall)
    have hw : waiting p.lock.thread = false := by
      by_contra hw
      simp [hl.waits (by simpa using hw)] at hcall
    have hlocal : ∀ x : DataTransfer.Peer Node C, x.thread = .running →
        CallLocal { p.withData x with call := none } :=
      fun x hx => ⟨fun _ => hx, fun _ => rfl, by simp, by simp⟩
    have hd : d.thread = .synced writing := by simpa [hw, hth] using h.thread
    by_cases hwrite : writing = true ∧ lockStatus = .writing
    · obtain ⟨rfl, rfl⟩ := hwrite
      obtain rfl := h.eq_data hw (by simp [hmode]) (by simp [hcall])
      rw [if_pos ⟨rfl, rfl⟩] at hr
      cases hr
      have hprotect : (DataTransfer.protocol nodeList).act n p.data .protect =
          some ({ p.data with prot := .readWrite, thread := .writable }, []) := by
        simp [DataTransfer.protocol, DataTransfer.act, DataTransfer.protect, hth, hmode,
          DataTransfer.memoryProtect]
      have hpublish : (DataTransfer.protocol nodeList).act n
          { p.data with prot := .readWrite, thread := .writable } .publish =
          some ({ p.data with prot := .readWrite, owner := n, state := true, thread := .running },
            sendInvalidation n (nodeList n)) := by
        simp [DataTransfer.protocol, DataTransfer.act, DataTransfer.publish,
          DataTransfer.setNewOwner]
      refine ⟨{ p.data with prot := .readWrite, owner := n, state := true, thread := .running },
        ?_, ?_, hlocal _ rfl⟩
      · rw [dataActions, if_pos ⟨hth, hmode⟩, filterMap_data_data]
        exact Network.actRun_pair hprotect hpublish
      · refine ⟨rfl, ?_, rfl, rfl, p.mode_eq, ?_, fun _ _ => rfl⟩
        · simp [Peer.withData, DataTransfer.setNewOwner]
        · simp [Peer.withData, hw]
    · rw [if_neg hwrite] at hr
      cases hr
      have hact : ¬ (p.data.thread = .synced true ∧ p.data.mode = .writing) := by
        rintro ⟨hth', hmode'⟩
        refine hwrite ⟨?_, hmode.symm.trans hmode'⟩
        simpa [hth] using hth'
      have hprotect : (DataTransfer.protocol nodeList).act n d .protect =
          some ({ d with prot := .read, thread := .running }, []) := by
        have hno : ¬ (writing = true ∧ d.mode = .writing) := by
          rw [h.mode, hmode]
          exact hwrite
        simp only [DataTransfer.protocol, DataTransfer.act, DataTransfer.protect, hd, if_neg hno]
        rfl
      refine ⟨{ d with prot := .read, thread := .running }, ?_, ?_, hlocal _ rfl⟩
      · rw [dataActions, if_neg hact]
        exact Network.actRun_single hprotect
      · refine ⟨h.owner, h.state, h.predicate, h.content, h.mode.trans p.mode_eq, ?_,
          fun _ _ => rfl⟩
        simp [Peer.withData, hw]
  · cases hr

omit [DecidableEq Node] [DecidableEq C] in
theorem store_eq_some {page : C} (h : store p page = some p') : p.running = true ∧
    p.data.prot = .readWrite ∧ p' = p.withData { p.data with content := page } := by
  unfold store at h
  split at h
  · rename_i hcond
    exact ⟨hcond.1, DataTransfer.Prot.allows_true.mp hcond.2, by simpa using h.symm⟩
  · cases h

omit [DecidableEq Node] [DecidableEq C] in
theorem load_eq_some (h : load p = some p') : p.running = true ∧ p.data.prot ≠ .none ∧ p' = p := by
  unfold load at h
  split at h
  · rename_i hcond
    exact ⟨hcond.1, DataTransfer.Prot.allows_false.mp hcond.2, by simpa using h.symm⟩
  · cases h

theorem followed_store (hp : PeerInv n p) (hl : CallLocal p) (h : Agrees p d) {page : C}
    (hr : store p page = some p') :
    Followed nodeList n d (dataActions n p (.store page)) (p', []) := by
  obtain ⟨hrun, hprot, rfl⟩ := store_eq_some hr
  obtain ⟨hcall, hth, hw⟩ := of_running hrun
  have hmode : p.data.mode = .writing := p.mode_eq.trans (hp.writable hprot).1
  obtain rfl := h.eq_data hw (by simp [hmode]) (by simp [hcall])
  refine ⟨{ p.data with content := page }, ?_, ?_, ?_⟩
  · exact Network.actRun_single (by
      simp [DataTransfer.protocol, DataTransfer.act, DataTransfer.write, hth, hmode, hprot,
        DataTransfer.Prot.allows])
  · exact ⟨rfl, rfl, rfl, rfl, p.mode_eq, by simp [Peer.withData, hw], fun _ _ => rfl⟩
  · exact ⟨hl.running, hl.waits, fun k hk => by simp [Peer.withData, hcall] at hk, hl.unlocking⟩

theorem followed_load (hl : CallLocal p) (h : Agrees p d) (hr : load p = some p') :
    Followed nodeList n d (dataActions n p .load) (p', []) := by
  obtain ⟨hrun, hprot, rfl⟩ := load_eq_some hr
  obtain ⟨hcall, hth, hw⟩ := of_running hrun
  refine ⟨d, ?_, h, hl⟩
  by_cases hmode : p'.data.mode = .none
  · simp [dataActions, hmode]
  · obtain rfl := h.eq_data hw hmode (by simp [hcall])
    rw [dataActions, if_neg hmode]
    exact Network.actRun_single (by
      simp [DataTransfer.protocol, DataTransfer.act, DataTransfer.read, hth, hmode,
        DataTransfer.Prot.allows_false.mpr hprot])

/-- The page transfer follows every step of the application thread. -/
theorem followed_act (hp : PeerInv n p) (hl : CallLocal p) (h : Agrees p d) {a : Action C}
    {r : Peer Node C × List (Msg Node C)} (hr : act (nodeList n) n p a = some r) :
    Followed nodeList n d (dataActions n p a) r := by
  cases a with
  | lock k =>
    obtain ⟨p', hp', rfl⟩ := Option.map_eq_some_iff.mp hr
    exact followed_lock h hp'
  | askLock =>
    obtain ⟨r', hr', rfl⟩ := Option.map_eq_some_iff.mp hr
    exact followed_askLock hl h hr'
  | resume =>
    obtain ⟨r', hr', rfl⟩ := Option.map_eq_some_iff.mp hr
    obtain ⟨k, hth, -, rfl⟩ := PageLock.resume_eq_some hr'
    exact followed_grant hl h (by simp [waiting, hth]) rfl rfl
  | semWake =>
    obtain ⟨r', hr', rfl⟩ := Option.map_eq_some_iff.mp hr
    obtain ⟨hth, -, rfl⟩ := PageLock.semWake_eq_some hr'
    exact followed_grant hl h (by simp [waiting, hth]) rfl rfl
  | release =>
    obtain ⟨p', hp', rfl⟩ := Option.map_eq_some_iff.mp hr
    exact followed_release h hp'
  | unlock =>
    obtain ⟨r', hr', rfl⟩ := Option.map_eq_some_iff.mp hr
    exact followed_unlock hl h hr'
  | sigsevHandler writing =>
    obtain ⟨r', hr', rfl⟩ := Option.map_eq_some_iff.mp hr
    exact followed_sigsevHandler h hr'
  | wake =>
    obtain ⟨x, hx, rfl⟩ := Option.map_eq_some_iff.mp hr
    exact followed_wake hl h hx
  | sigsevReturn =>
    obtain ⟨r', hr', rfl⟩ := Option.map_eq_some_iff.mp hr
    exact followed_sigsevReturn hp hl h hr'
  | store page =>
    obtain ⟨p', hp', rfl⟩ := Option.map_eq_some_iff.mp hr
    exact followed_store hp hl h hp'
  | load =>
    obtain ⟨p', hp', rfl⟩ := Option.map_eq_some_iff.mp hr
    exact followed_load hl h hp'

end Act

/-! ## The handlers -/

omit [DecidableEq Node] in
/-- The reset of the protection does the same on both sides. -/
theorem Agrees.reset (h : Agrees p d) :
    (DataTransfer.memoryLockReset d).prot = (DataTransfer.memoryLockReset p.data).prot := by
  unfold DataTransfer.memoryLockReset
  rw [h.mode]
  rfl

omit [DecidableEq Node] in
theorem memoryLockReset_none {e : DataTransfer.Peer Node C} (hmode : e.mode = .none) :
    (DataTransfer.memoryLockReset e).prot = .none := by
  simp [DataTransfer.memoryLockReset, DataTransfer.memoryProtect, hmode]

omit [DecidableEq Node] in
/-- A handler of the page transfer leaves the thread as it is, and an unlocked page unprotected. -/
theorem CallLocal.withData (h : CallLocal p) {x : DataTransfer.Peer Node C}
    (hth : x.thread = p.data.thread)
    (hprot : p.data.mode = .none → p.data.prot = .none → x.prot = .none) :
    CallLocal (p.withData x) where
  running := fun hcall => hth.trans (h.running hcall)
  waits := h.waits
  asking := fun k hk =>
    ⟨hth.trans (h.asking k hk).1, fun hm => by
      have hm' : p.data.mode = .none := p.mode_eq.trans hm
      exact hprot hm' ((h.asking k hk).2 hm')⟩
  unlocking := fun hcall => hth.trans (h.unlocking hcall)

/-- The page transfer handles a message of its own in the same way. -/
theorem followed_handle (hl : CallLocal p) (h : Agrees p d) (m : DataTransfer.Msg Node C) :
    (DataTransfer.handle n d m).2 = (DataTransfer.handle n p.data m).2 ∧
      Agrees (p.withData (DataTransfer.handle n p.data m).1) (DataTransfer.handle n d m).1 ∧
      CallLocal (p.withData (DataTransfer.handle n p.data m).1) := by
  have hmode := h.mode.trans p.mode_eq
  cases m with
  | invalidation i sender =>
    refine ⟨rfl, ⟨rfl, rfl, h.predicate, h.content, hmode, h.thread, fun _ _ => rfl⟩, ?_⟩
    exact hl.withData rfl fun _ _ => rfl
  | askPage i requester =>
    by_cases ho : p.data.owner = n
    · have hd : d.owner = n := h.owner.trans ho
      have heq : ∀ e : DataTransfer.Peer Node C, e.owner = n →
          DataTransfer.handle n e (.askPage i requester) =
            (DataTransfer.memoryLockReset e, [.recvPage requester n e.content]) :=
        fun e he => by
          simp [DataTransfer.handle, DataTransfer.askPageHandler, DataTransfer.transferPage, he]
      rw [heq d hd, heq p.data ho, h.content]
      refine ⟨rfl, ⟨h.owner, h.state, h.predicate, h.content, hmode, h.thread,
        fun _ _ => h.reset⟩, ?_⟩
      exact hl.withData rfl fun hm _ => memoryLockReset_none hm
    · have hd : d.owner ≠ n := fun h0 => ho (h.owner.symm.trans h0)
      have heq : ∀ e : DataTransfer.Peer Node C, e.owner ≠ n →
          DataTransfer.handle n e (.askPage i requester) = (e, [.askPage e.owner requester]) :=
        fun e he => by simp [DataTransfer.handle, DataTransfer.askPageHandler, he]
      rw [heq d hd, heq p.data ho, h.owner]
      refine ⟨rfl, ⟨h.owner, h.state, h.predicate, h.content, hmode, h.thread,
        fun hne hcall => h.prot (fun h0 => hne (p.mode_eq.symm.trans h0)) hcall⟩, ?_⟩
      exact hl.withData rfl fun _ hprot => hprot
  | recvPage i owner page =>
    have heq : ∀ e : DataTransfer.Peer Node C, (DataTransfer.handle n e (.recvPage i owner page)) =
        ({ DataTransfer.memoryLockReset e with
            owner := owner, content := page, predicate := true
            state := if e.predicate then e.state else true }, []) := by
      intro e
      cases hpred : e.predicate <;>
        simp [DataTransfer.handle, DataTransfer.updatePage, DataTransfer.memoryLockReset,
          DataTransfer.memoryProtect, DataTransfer.signalPageNoLock, hpred]
    rw [heq d, heq p.data]
    refine ⟨rfl, ⟨rfl, ?_, rfl, rfl, hmode, h.thread, fun _ _ => h.reset⟩, ?_⟩
    · show (if d.predicate then d.state else true) = _
      rw [h.predicate, h.state]
      rfl
    · exact hl.withData rfl fun hm _ => memoryLockReset_none hm

/-! ## The page lock -/

section Lock

variable {nodeList : Node → List Node}

omit [DecidableEq Node] in
theorem separates_lock : Network.Separates (Msg.lock? : Msg Node C → _) := by
  intro m m' x hm hm'
  cases m <;> cases m' <;> simp_all [Msg.lock?]

omit [DecidableEq Node] in
theorem separates_data : Network.Separates (Msg.data? : Msg Node C → _) := by
  intro m m' x hm hm'
  cases m <;> cases m' <;> simp_all [Msg.data?]

omit [DecidableEq Node] in
theorem filterMap_lock_lock (l : List (PageLock.Msg Node)) :
    (l.map (Msg.lock (C := C))).filterMap Msg.lock? = l := by
  simp [List.filterMap_map, Function.comp_def, Msg.lock?]

omit [DecidableEq Node] in
theorem filterMap_lock_data (l : List (DataTransfer.Msg Node C)) :
    (l.map Msg.data).filterMap Msg.lock? = [] := by
  simp [Msg.lock?]

/-- What a step of the application thread is for the page lock. -/
theorem lock_act {a : Action C} {r : Peer Node C × List (Msg Node C)}
    (hr : act (nodeList n) n p a = some r) :
    Network.actRun (PageLock.protocol nodeList) n p.lock (lockActions p a) =
      some (r.1.lock, r.2.filterMap Msg.lock?) := by
  cases a with
  | lock k =>
    obtain ⟨p', hp', rfl⟩ := Option.map_eq_some_iff.mp hr
    obtain ⟨-, rfl⟩ := excludeOthers_eq_some hp'
    rfl
  | release =>
    obtain ⟨p', hp', rfl⟩ := Option.map_eq_some_iff.mp hr
    obtain ⟨-, rfl⟩ := excludeOthers_eq_some hp'
    rfl
  | askLock =>
    obtain ⟨r', hr', rfl⟩ := Option.map_eq_some_iff.mp hr
    unfold askLock at hr'
    split at hr'
    · rename_i k hcall
      obtain ⟨l, hl, rfl⟩ := Option.map_eq_some_iff.mp hr'
      rw [filterMap_lock_lock, lockActions, hcall]
      exact Network.actRun_single hl
    · cases hr'
  | unlock =>
    obtain ⟨r', hr', rfl⟩ := Option.map_eq_some_iff.mp hr
    unfold unlock at hr'
    split at hr'
    · obtain ⟨l, hl, rfl⟩ := Option.map_eq_some_iff.mp hr'
      rw [filterMap_lock_lock]
      exact Network.actRun_single hl
    · cases hr'
  | resume =>
    obtain ⟨l, hl, rfl⟩ := Option.map_eq_some_iff.mp hr
    rw [filterMap_lock_lock]
    exact Network.actRun_single hl
  | semWake =>
    obtain ⟨l, hl, rfl⟩ := Option.map_eq_some_iff.mp hr
    rw [filterMap_lock_lock]
    exact Network.actRun_single hl
  | sigsevHandler writing =>
    obtain ⟨r', hr', rfl⟩ := Option.map_eq_some_iff.mp hr
    unfold sigsevHandler at hr'
    split at hr'
    · obtain ⟨x, -, rfl⟩ := Option.map_eq_some_iff.mp hr'
      rw [filterMap_lock_data]
      rfl
    · cases hr'
  | wake =>
    obtain ⟨x, -, rfl⟩ := Option.map_eq_some_iff.mp hr
    rfl
  | sigsevReturn =>
    obtain ⟨r', hr', rfl⟩ := Option.map_eq_some_iff.mp hr
    obtain ⟨-, -, -, hlock, -⟩ := sigsevReturn_cases hr'
    rw [filterMap_lock_data, hlock]
    rfl
  | store page =>
    obtain ⟨p', hp', rfl⟩ := Option.map_eq_some_iff.mp hr
    obtain ⟨-, -, rfl⟩ := store_eq_some hp'
    rfl
  | load =>
    obtain ⟨p', hp', rfl⟩ := Option.map_eq_some_iff.mp hr
    obtain ⟨-, -, rfl⟩ := load_eq_some hp'
    rfl

theorem lockNet_fire (s : Net Node C) (i : Node) (rest : List (Msg Node C))
    (r : Peer Node C × List (Msg Node C)) : lockNet (s.fire i rest r) =
      (lockNet s).fire i (rest.filterMap Msg.lock?) (r.1.lock, r.2.filterMap Msg.lock?) :=
  Network.project_fire s i rest r

variable [DecidableEq C] {s s' : Net Node C} {e : Event Node C}

/-- A step of the two together is a step of the page lock, or none. -/
theorem lock_step (hstep : step nodeList s e = some s') :
    Network.run (PageLock.step nodeList) (lockNet s) (lockEvents s e) = some (lockNet s') := by
  rcases Network.step_cases hstep with ⟨i, a, r, rfl, hr, rfl⟩ | ⟨m, r, rfl, hm, hr, rfl⟩
  · rw [lockNet_fire]
    exact Network.run_act (lock_act hr)
  · rw [lockNet_fire]
    cases m with
    | lock m =>
      obtain ⟨l, hl, rfl⟩ := Option.map_eq_some_iff.mp hr
      have hm' : m ∈ (lockNet s).msgs := Network.mem_project_msgs hm rfl
      have h := Network.step_deliver (P := PageLock.protocol nodeList) hm' hl
      rw [Network.filterMap_erase_some separates_lock rfl, filterMap_lock_lock]
      exact Network.run_cons_eq_some.mpr ⟨_, h, rfl⟩
    | data m =>
      cases hr
      rw [Network.filterMap_erase_none rfl, filterMap_lock_data]
      exact congrArg some (Network.fire_same (lockNet s) _).symm

omit [DecidableEq Node] [DecidableEq C] in
/-- The page lock takes at most one step, and nobody leaves. -/
theorem lockEvents_cases (s : Net Node C) (e : Event Node C) :
    lockEvents s e = [] ∨ ∃ e', lockEvents s e = [e'] ∧ PageLock.noLeave e' = true := by
  cases e with
  | act i a =>
    cases a with
    | askLock =>
      simp only [lockEvents, lockActions]
      split
      · exact Or.inr ⟨_, rfl, rfl⟩
      · exact Or.inl rfl
    | resume => exact Or.inr ⟨_, rfl, rfl⟩
    | semWake => exact Or.inr ⟨_, rfl, rfl⟩
    | unlock => exact Or.inr ⟨_, rfl, rfl⟩
    | _ => exact Or.inl rfl
  | deliver m =>
    cases m with
    | lock m => exact Or.inr ⟨_, rfl, rfl⟩
    | data m => exact Or.inl rfl

theorem lock_inv_step [Fintype Node] (h : PageLock.Inv (lockNet s)) (hok : lockInOrder s e = true)
    (hstep : step nodeList s e = some s') : PageLock.Inv (lockNet s') := by
  have hrun := lock_step hstep
  rcases lockEvents_cases s e with hnil | ⟨e', he', hno⟩
  · rw [hnil] at hrun
    rw [← Option.some.inj hrun]
    exact h
  · rw [lockInOrder, he', List.all_cons, List.all_nil, Bool.and_true] at hok
    rw [he', Network.run_cons_eq_some] at hrun
    obtain ⟨t, ht, hrun⟩ := hrun
    rw [← Option.some.inj hrun]
    exact PageLock.inv_step h hno hok ht

end Lock

/-! ## What the page lock promises -/

section Promise

variable [Fintype Node]

/-- When the page lock lets `i` in, the page transfer may do so. -/
theorem exclusive_grant {s : Net Node C} {t : DataTransfer.Net Node C}
    (hlock : PageLock.Inv (lockNet s)) {i : Node} {k : LockType}
    (hi : (s.node i).lock.thread = .returned k) (hmode : (t.node i).mode = k.toStatus)
    (hagrees : ∀ j, j ≠ i → Agrees (s.node j) (t.node j)) :
    DataTransfer.exclusive t (.act i .grant) = true := by
  simp only [DataTransfer.exclusive, decide_eq_true_eq]
  intro j hj hin
  have hin' : (t.node j).mode ≠ .none ∧ (t.node j).thread ≠ .asking := by
    simpa [DataTransfer.Peer.inside] using hin
  have ha := hagrees j hj
  have hjmode : (s.node j).lock.core.mode ≠ .none := fun h0 =>
    hin'.1 (ha.mode.trans ((s.node j).mode_eq.trans h0))
  have hw : waiting (s.node j).lock.thread = false := by
    by_contra hw
    exact hin'.2 (by simpa [hw] using ha.thread)
  have hlocal : PageLock.LocalInv j (s.node j).lock := hlock.local_ j
  have hthread := hlocal.mode
  cases hth : (s.node j).lock.thread with
  | returned k' =>
    obtain ⟨rfl, rfl⟩ := hlock.readers_together hj (k := k) hi hth
    rw [hth] at hthread
    exact ⟨hmode, ha.mode.trans ((s.node j).mode_eq.trans hthread)⟩
  | idle =>
    rw [hth] at hthread
    exact absurd hthread hjmode
  | semWait => simp [hth, waiting] at hw
  | condWait k' => simp [hth, waiting] at hw
  | leaving delegate locked => simp [hth] at hthread
  | left => simp [hth] at hthread

end Promise

end Sigsegv
