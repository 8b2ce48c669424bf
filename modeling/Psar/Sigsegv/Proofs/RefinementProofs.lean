import Psar.Sigsegv.Proofs.CoherenceProofs

/-!
# Proofs: the two together refine the page transfer

Every step of the page lock and the page transfer together is followed by steps of the page
transfer, so every run is. The page lock is in its invariant all along, and that is what the page
transfer asks of the lock layer.
-/

namespace Sigsegv

open PageLock (LockType)

variable {Node C : Type} [DecidableEq Node] [DecidableEq C] {nodeList : Node → List Node}
  {s s' : Net Node C} {t t' : DataTransfer.Net Node C} {e : Event Node C} {i : Node}

/-! ## One step -/

omit [DecidableEq C] in
/-- What is left of the relation when the node `i` has moved. -/
theorem Follows.fire (h : Follows s t) (hcall : ∀ n, CallLocal (s.node n)) {i : Node}
    {ms : List (Msg Node C)} {rs : List (DataTransfer.Msg Node C)}
    {r : Peer Node C × List (Msg Node C)}
    {d : DataTransfer.Peer Node C × List (DataTransfer.Msg Node C)}
    (hms : rs = ms.filterMap Msg.data?) (hr : d.2 = r.2.filterMap Msg.data?)
    (hag : Agrees r.1 d.1) (hl : CallLocal r.1) :
    Follows (s.fire i ms r) (t.fire i rs d) ∧ ∀ n, CallLocal ((s.fire i ms r).node n) := by
  refine ⟨⟨fun n => ?_, ?_⟩, Network.forall_node_fire hcall hl⟩
  · by_cases hn : n = i
    · subst hn
      simpa using hag
    · rw [Network.fire_node_ne _ _ _ hn, Network.fire_node_ne _ _ _ hn]
      exact h.agrees n
  · rw [Network.fire_msgs, Network.fire_msgs, List.filterMap_append, hms, hr]

omit [DecidableEq C] in
/-- The handler of a message of the page lock leaves the page transfer as it is. -/
theorem agrees_handle_lock {n : Node} {p : Peer Node C} {d : DataTransfer.Peer Node C}
    (h : Agrees p d) (hl : CallLocal p) {m : PageLock.Msg Node}
    {l : PageLock.Peer Node × List (PageLock.Msg Node)}
    (hr : PageLock.handle n p.lock m = some l) :
    Agrees (p.withLock l.1) d ∧ CallLocal (p.withLock l.1) := by
  have hmode := PageLock.handle_mode hr
  have hth := PageLock.handle_thread hr
  exact ⟨h.withLock hmode (by rw [hth]), hl.withLock hmode (by rw [hth]; exact hl.waits)⟩

/-- The page transfer follows every step of the two together. -/
theorem follows_step (hlock : ∀ n, PeerInv n (s.node n)) (hcall : ∀ n, CallLocal (s.node n))
    (h : Follows s t) (hstep : step nodeList s e = some s') :
    ∃ t', Network.run (DataTransfer.step nodeList) t (dataEvents s e) = some t' ∧
      Follows s' t' ∧ ∀ n, CallLocal (s'.node n) := by
  rcases Network.step_cases hstep with ⟨i, a, r, rfl, hr, rfl⟩ | ⟨m, r, rfl, hm, hr, rfl⟩
  · obtain ⟨d', hd', hag, hl⟩ := followed_act (hlock i) (hcall i) (h.agrees i) hr
    exact ⟨_, Network.run_act hd', h.fire hcall h.msgs rfl hag hl⟩
  · cases m with
    | lock m =>
      obtain ⟨l, hl, rfl⟩ := Option.map_eq_some_iff.mp hr
      obtain ⟨hag, hlocal⟩ := agrees_handle_lock (h.agrees m.dest) (hcall m.dest) hl
      refine ⟨t, rfl, ?_⟩
      have hsame : t.fire m.dest t.msgs (t.node m.dest, []) = t := Network.fire_same t _
      rw [← hsame]
      refine h.fire hcall ?_ (by simp [Msg.data?]) hag hlocal
      rw [Network.filterMap_erase_none rfl]
      exact h.msgs
    | data m =>
      cases hr
      obtain ⟨hout, hag, hlocal⟩ := followed_handle (hcall m.dest) (h.agrees m.dest) m
      have hm' : m ∈ t.msgs := by
        rw [h.msgs]
        exact List.mem_filterMap.mpr ⟨_, hm, rfl⟩
      have hdel := Network.step_deliver (P := DataTransfer.protocol nodeList) hm' rfl
      refine ⟨_, Network.run_cons_eq_some.mpr ⟨_, hdel, rfl⟩, ?_⟩
      refine h.fire hcall ?_ ?_ hag hlocal
      · rw [Network.filterMap_erase_some separates_data rfl, h.msgs]
      · rw [filterMap_data_data]
        exact hout

variable [Fintype Node]

theorem joined_step (h : Joined s) (hf : Follows s t) (hok : lockInOrder s e = true)
    (hstep : step nodeList s e = some s') :
    ∃ t', Network.run (DataTransfer.step nodeList) t (dataEvents s e) = some t' ∧
      Follows s' t' ∧ Joined s' := by
  obtain ⟨t', hrun, hf', hcall⟩ := follows_step h.peer h.call hf hstep
  refine ⟨t', hrun, hf', lock_inv_step h.lock hok hstep, ?_, hcall⟩
  rcases Network.step_cases hstep with ⟨i, a, r, rfl, hr, rfl⟩ | ⟨m, r, rfl, -, hr, rfl⟩
  · exact Network.forall_node_fire h.peer (peerInv_act (h.peer i) hr)
  · exact Network.forall_node_fire h.peer (peerInv_handle (h.peer _) hr)

/-! ## The promise of the lock layer -/

omit [Fintype Node] in
/-- The state after `ask_lock` has called the page lock of the page transfer. -/
theorem lock_of_step {i : Node} {k : LockType} (hstep : t' ∈ DataTransfer.step nodeList t
    (.act i (.lock k))) (hmode : (t.node i).mode = .none) :
    t' = t.fire i t.msgs ({ DataTransfer.memoryLock (t.node i) with
      mode := k.toStatus, thread := .asking }, []) := by
  obtain ⟨r, hr, rfl⟩ := Option.map_eq_some_iff.mp hstep
  obtain ⟨p', hp', rfl⟩ := Option.map_eq_some_iff.mp hr
  unfold DataTransfer.lock at hp'
  rw [if_pos hmode] at hp'
  split at hp'
  · rw [← Option.some.inj hp']
  · cases hp'

omit [DecidableEq C] in
/-- The thread of `i` has returned from `ask_lock` in this step. -/
theorem exclusive_of_returned {i : Node} {r : Peer Node C × List (Msg Node C)} {k : LockType}
    {p : DataTransfer.Peer Node C} (hinv : PageLock.Inv (lockNet (s.fire i s.msgs r)))
    (h : Follows s t) (hret : r.1.lock.thread = .returned k) (hp : p.mode = k.toStatus) :
    DataTransfer.exclusive (t.fire i t.msgs (p, [])) (.act i .grant) = true := by
  refine exclusive_grant hinv (k := k) ?_ ?_ fun j hj => ?_
  · rwa [Network.fire_node_self]
  · rwa [Network.fire_node_self]
  · rw [Network.fire_node_ne _ _ _ hj, Network.fire_node_ne _ _ _ hj]
    exact h.agrees j

/-- The lock is granted in the page transfer only when the page lock has granted it. -/
theorem exclusive_act (h : Joined s) (hf : Follows s t) {i : Node} {a : Action C}
    {r : Peer Node C × List (Msg Node C)}
    (hinv : PageLock.Inv (lockNet (s.fire i s.msgs r)))
    (hr : act (nodeList i) i (s.node i) a = some r) :
    Network.Meets (DataTransfer.step nodeList) (fun u d => DataTransfer.exclusive u d = true) t
      (dataEvents s (.act i a)) := by
  have hlocal : PageLock.LocalInv i (s.node i).lock := h.lock.local_ i
  have hmode := ((hf.agrees i).mode.trans (s.node i).mode_eq)
  -- a thread that has waited returns with the lock it has asked for
  have hgrant : ∀ {k : LockType}, r.1.lock.thread = .returned k →
      (s.node i).lock.core.mode = k.toStatus →
      Network.Meets (DataTransfer.step nodeList) (fun u d => DataTransfer.exclusive u d = true) t
        [.act i .grant] := by
    intro k hret hk
    have hex := exclusive_of_returned hinv hf hret (p := t.node i) (hmode.trans hk)
    rw [Network.fire_same] at hex
    exact ⟨hex, fun _ _ => trivial⟩
  cases a with
  | resume =>
    obtain ⟨r', hr', rfl⟩ := Option.map_eq_some_iff.mp hr
    obtain ⟨k, hth, -, rfl⟩ := PageLock.resume_eq_some hr'
    have hk := hlocal.mode
    rw [hth] at hk
    exact hgrant (k := k) rfl hk
  | semWake =>
    obtain ⟨r', hr', rfl⟩ := Option.map_eq_some_iff.mp hr
    obtain ⟨hth, -, rfl⟩ := PageLock.semWake_eq_some hr'
    have hk := hlocal.mode
    rw [hth] at hk
    exact hgrant (k := .write) rfl hk
  | askLock =>
    obtain ⟨r', hr', rfl⟩ := Option.map_eq_some_iff.mp hr
    unfold askLock at hr'
    split at hr'
    · rename_i k hcall
      obtain ⟨l, hl, rfl⟩ := Option.map_eq_some_iff.mp hr'
      simp only [dataEvents, dataActions, hcall]
      split
      · rename_i hnone
        obtain ⟨hk, hcases⟩ := askLock_free ((s.node i).mode_eq.symm.trans hnone) hl
        split
        · rename_i honce
          have hret : l.1.thread = .returned k := by
            rcases hcases with ⟨-, hret⟩ | ⟨hno, -⟩
            · exact hret
            · rw [honce] at hno
              cases hno
          refine ⟨rfl, fun t' ht' => ?_⟩
          rw [lock_of_step ht' ((hf.agrees i).mode.trans hnone)]
          exact ⟨exclusive_of_returned hinv hf hret rfl, fun _ _ => trivial⟩
        · exact ⟨rfl, fun _ _ => trivial⟩
      · trivial
    · cases hr'
  | lock k =>
    simp only [dataEvents, dataActions]
    split
    · trivial
    · exact ⟨rfl, fun _ _ => trivial⟩
  | release => trivial
  | sigsevReturn =>
    simp only [dataEvents, dataActions]
    split
    · exact ⟨rfl, fun _ _ => ⟨rfl, fun _ _ => trivial⟩⟩
    · exact ⟨rfl, fun _ _ => trivial⟩
  | load =>
    simp only [dataEvents, dataActions]
    split
    · trivial
    · exact ⟨rfl, fun _ _ => trivial⟩
  | _ => exact ⟨rfl, fun _ _ => trivial⟩

theorem exclusive_step (h : Joined s) (hf : Follows s t) (hok : lockInOrder s e = true)
    (hstep : step nodeList s e = some s') :
    Network.Meets (DataTransfer.step nodeList) (fun u d => DataTransfer.exclusive u d = true) t
      (dataEvents s e) := by
  have hinv := lock_inv_step h.lock hok hstep
  rcases Network.step_cases hstep with ⟨i, a, r, rfl, hr, rfl⟩ | ⟨m, r, rfl, -, -, -⟩
  · exact exclusive_act h hf hinv hr
  · cases m with
    | lock m => trivial
    | data m => exact ⟨rfl, fun _ _ => trivial⟩

/-! ## The promise about the copies -/

omit [Fintype Node] [DecidableEq C] in
theorem Follows.invalidated (h : Follows s t) (n : Node) :
    DataTransfer.invalidated t n = invalidated s n := by
  unfold DataTransfer.invalidated Sigsegv.invalidated
  rw [h.msgs, List.any_filterMap]
  congr 1
  funext m
  cases m with
  | lock m => rfl
  | data m => cases m <;> rfl

omit [Fintype Node] in
/-- A node relies on its copy in the page transfer only when it does so here. -/
theorem upToDate_act (hinv : PageLock.LocalInv i (s.node i).lock) (hl : CallLocal (s.node i))
    (hf : Follows s t) {a : Action C} {r : Peer Node C × List (Msg Node C)}
    (hup : upToDate s (.act i a) = true) (hr : act (nodeList i) i (s.node i) a = some r) :
    Network.Meets (DataTransfer.step nodeList) (fun u d => DataTransfer.upToDate u d = true) t
      (dataEvents s (.act i a)) := by
  have hag := hf.agrees i
  cases a with
  | resume =>
    obtain ⟨r', hr', rfl⟩ := Option.map_eq_some_iff.mp hr
    obtain ⟨k, hth, -, rfl⟩ := PageLock.resume_eq_some hr'
    have hk := hinv.mode
    rw [hth] at hk
    have hmode : (s.node i).data.mode ≠ .none := by
      rw [(s.node i).mode_eq, hk]
      cases k <;> simp [LockType.toStatus]
    have hcall := hl.waits (by simp [waiting, hth])
    refine ⟨?_, fun _ _ => trivial⟩
    simpa [DataTransfer.upToDate, upToDate, hag.prot hmode (by simp [hcall]), hf.invalidated]
      using hup
  | semWake =>
    obtain ⟨r', hr', rfl⟩ := Option.map_eq_some_iff.mp hr
    obtain ⟨-, hpos, -⟩ := PageLock.semWake_eq_some hr'
    -- nobody posts the semaphore
    rw [hinv.semaphore] at hpos
    exact absurd hpos (lt_irrefl 0)
  | askLock =>
    simp only [dataEvents, dataActions]
    split
    · split
      · rename_i hnone
        split
        · refine ⟨rfl, fun t' ht' => ?_⟩
          rw [lock_of_step ht' (hag.mode.trans hnone)]
          refine ⟨?_, fun _ _ => trivial⟩
          simp [DataTransfer.upToDate, DataTransfer.memoryLock, DataTransfer.memoryProtect]
        · exact ⟨rfl, fun _ _ => trivial⟩
      · trivial
    · trivial
  | sigsevHandler writing =>
    refine ⟨?_, fun _ _ => trivial⟩
    simpa [DataTransfer.upToDate, upToDate, hag.owner, hag.state, hf.invalidated] using hup
  | lock k =>
    simp only [dataEvents, dataActions]
    split
    · trivial
    · exact ⟨rfl, fun _ _ => trivial⟩
  | release => trivial
  | sigsevReturn =>
    simp only [dataEvents, dataActions]
    split
    · exact ⟨rfl, fun _ _ => ⟨rfl, fun _ _ => trivial⟩⟩
    · exact ⟨rfl, fun _ _ => trivial⟩
  | load =>
    simp only [dataEvents, dataActions]
    split
    · trivial
    · exact ⟨rfl, fun _ _ => trivial⟩
  | _ => exact ⟨rfl, fun _ _ => trivial⟩

theorem upToDate_step (h : Joined s) (hf : Follows s t) (hup : upToDate s e = true)
    (hstep : step nodeList s e = some s') :
    Network.Meets (DataTransfer.step nodeList) (fun u d => DataTransfer.upToDate u d = true) t
      (dataEvents s e) := by
  rcases Network.step_cases hstep with ⟨i, a, r, rfl, hr, rfl⟩ | ⟨m, r, rfl, -, -, -⟩
  · exact upToDate_act (h.lock.local_ i) (h.call i) hf hup hr
  · cases m with
    | lock m => trivial
    | data m =>
      refine ⟨?_, fun _ _ => trivial⟩
      cases m with
      | askPage d y =>
        simpa [DataTransfer.upToDate, upToDate, (hf.agrees d).owner, hf.invalidated] using hup
      | _ => rfl

/-! ## Runs -/

omit [DecidableEq C] in
theorem joined_initNet (o : Node) (page : Node → C) : Joined (initNet o page) where
  lock := PageLock.inv_initNet o
  peer := fun n => by
    refine ⟨fun hprot => ?_, fun _ hcall => by simp [initNet] at hcall⟩
    by_cases hn : n = o <;> simp [initNet, DataTransfer.initDataTransfer, hn] at hprot
  call := fun n => ⟨fun _ => rfl, fun _ => rfl, by simp [initNet], by simp [initNet]⟩

omit [Fintype Node] [DecidableEq C] in
theorem follows_initNet (o : Node) (page : Node → C) :
    Follows (initNet o page) (DataTransfer.initNet o page) :=
  ⟨fun _ => ⟨rfl, rfl, rfl, rfl, rfl, rfl, fun _ _ => rfl⟩, rfl⟩

/-- A run is followed by a run of the page transfer, and the page lock is in its invariant. -/
theorem follows_run {o : Node} {page : Node → C} {es : List (Event Node C)}
    (hrun : Network.run (step nodeList) (initNet o page) es = some s)
    (hok : Network.Meets (step nodeList) (fun s e => lockInOrder s e = true) (initNet o page) es) :
    ∃ t, Network.run (DataTransfer.step nodeList) (DataTransfer.initNet o page)
        (dataRun nodeList (initNet o page) es) = some t ∧
      Network.Meets (DataTransfer.step nodeList) (fun u d => DataTransfer.exclusive u d = true)
        (DataTransfer.initNet o page) (dataRun nodeList (initNet o page) es) ∧
      Joined s ∧ Follows s t := by
  have hsim : ∀ (s : Net Node C) (t : DataTransfer.Net Node C) e s', Joined s ∧ Follows s t →
      lockInOrder s e = true → step nodeList s e = some s' →
      ∃ t', Network.run (DataTransfer.step nodeList) t (dataEvents s e) = some t' ∧
        Network.Meets (DataTransfer.step nodeList) (fun u d => DataTransfer.exclusive u d = true) t
          (dataEvents s e) ∧ Joined s' ∧ Follows s' t' := by
    rintro s t e s' ⟨hj, hf⟩ hok hstep
    obtain ⟨t', hrun', hf', hj'⟩ := joined_step hj hf hok hstep
    exact ⟨t', hrun', exclusive_step hj hf hok hstep, hj', hf'⟩
  exact Network.run_translate hsim ⟨joined_initNet o page, follows_initNet o page⟩ hok hrun

/-- Refinement: every run of the page lock and the page transfer together, in which every hand-over
of the page lock is safe and no node in mode `READING` calls `ask_lock(WRITE)`, is followed by a run
of the page transfer in which the lock layer keeps readers and writers apart. At the end every node
has the owner, the state, the content and the lock status that the page transfer says, and the
protection while it is in its critical section. -/
theorem refines_data_transfer {o : Node} {page : Node → C} {es : List (Event Node C)}
    (hrun : Network.run (step nodeList) (initNet o page) es = some s)
    (hok : Network.Meets (step nodeList) (fun s e => lockInOrder s e = true) (initNet o page) es) :
    ∃ t, Network.run (DataTransfer.step nodeList) (DataTransfer.initNet o page)
        (dataRun nodeList (initNet o page) es) = some t ∧
      Network.Meets (DataTransfer.step nodeList) (fun u d => DataTransfer.exclusive u d = true)
        (DataTransfer.initNet o page) (dataRun nodeList (initNet o page) es) ∧
      Follows s t := by
  obtain ⟨t, ht, hex, -, hf⟩ := follows_run hrun hok
  exact ⟨t, ht, hex, hf⟩

omit [Fintype Node] [DecidableEq C] in
/-- A store is a write of the page transfer, and nothing else is. -/
theorem foldl_dataEvents (s : Net Node C) (e : Event Node C) (v : C) :
    (dataEvents s e).foldl DataTransfer.lastContent v = lastStore v e := by
  cases e with
  | act i a =>
    cases a with
    | lock k =>
      simp only [dataEvents, dataActions]
      split <;> rfl
    | askLock =>
      simp only [dataEvents, dataActions]
      split
      · split
        · split <;> rfl
        · rfl
      · rfl
    | sigsevReturn =>
      simp only [dataEvents, dataActions]
      split <;> rfl
    | load =>
      simp only [dataEvents, dataActions]
      split <;> rfl
    | _ => rfl
  | deliver m => cases m <;> rfl

/-- What a load in a critical section finds. -/
theorem content_of_load (hlist : ∀ n m, m ∈ nodeList n ↔ m ≠ n) {o : Node} {page : Node → C}
    {es : List (Event Node C)}
    (hrun : Network.run (step nodeList) (initNet o page) es = some s)
    (hok : Network.Meets (step nodeList) (fun s e => (lockInOrder s e && upToDate s e) = true)
      (initNet o page) es)
    {p : Peer Node C} (hload : load (s.node i) = some p) (hmode : p.data.mode ≠ .none) :
    p.data.content = es.foldl lastStore (page o) := by
  have hsim : ∀ (s : Net Node C) (t : DataTransfer.Net Node C) e s', Joined s ∧ Follows s t →
      (lockInOrder s e && upToDate s e) = true → step nodeList s e = some s' →
      ∃ t', Network.run (DataTransfer.step nodeList) t (dataEvents s e) = some t' ∧
        Network.Meets (DataTransfer.step nodeList)
          (fun u d => DataTransfer.exclusive u d = true ∧ DataTransfer.upToDate u d = true) t
          (dataEvents s e) ∧ Joined s' ∧ Follows s' t' := by
    rintro s t e s' ⟨hj, hf⟩ hok hstep
    obtain ⟨hok, hup⟩ := Bool.and_eq_true_iff.mp hok
    obtain ⟨t', hrun', hf', hj'⟩ := joined_step hj hf hok hstep
    exact ⟨t', hrun', (exclusive_step hj hf hok hstep).and (upToDate_step hj hf hup hstep),
      hj', hf'⟩
  obtain ⟨t, ht, hmeets, -, hf⟩ := Network.run_translate hsim
    ⟨joined_initNet o page, follows_initNet o page⟩ hok hrun
  have hcoh : DataTransfer.Coherent (es.foldl lastStore (page o)) t ∧ DataTransfer.Flight t := by
    rw [← Network.foldl_translate foldl_dataEvents hrun]
    refine Network.run_simulation
      (R := fun t v => DataTransfer.Coherent v t ∧ DataTransfer.Flight t)
      (fun t v d t' hR hok hstep => ?_)
      ⟨DataTransfer.coherent_initNet o page, DataTransfer.flight_initNet o page⟩ hmeets ht
    exact ⟨DataTransfer.coherent_step hlist hR.1 hR.2 hok.1 hok.2 hstep,
      DataTransfer.flight_step (fun n m hm => (hlist n m).mp hm) hR.2 hstep⟩
  -- inside its critical section the node is the node of the page transfer
  obtain ⟨hrunning, hprot, rfl⟩ := load_eq_some hload
  obtain ⟨hcall, hth, hw⟩ := of_running hrunning
  have hag := (hf.agrees i).eq_data hw hmode (by simp [hcall])
  rw [← hag]
  refine hcoh.1.valid i ?_
  rw [hag]
  simp [DataTransfer.Peer.valid, hth, hmode, hprot]

omit [Fintype Node] in
/-- A load finds the node as it is and leaves it so. -/
theorem load_of_step (hstep : step nodeList s (.act i .load) = some s') :
    s' = s ∧ load (s.node i) = some (s.node i) := by
  obtain ⟨r, hr, rfl⟩ := Option.map_eq_some_iff.mp hstep
  obtain ⟨p, hp, rfl⟩ := Option.map_eq_some_iff.mp hr
  obtain ⟨-, -, rfl⟩ := load_eq_some hp
  exact ⟨Network.fire_same s i, hp⟩

omit [Fintype Node] in
theorem load_of_run {es : List (Event Node C)} {s₀ : Net Node C}
    (hrun : Network.run (step nodeList) s₀ (es ++ [.act i .load]) = some s) :
    Network.run (step nodeList) s₀ es = some s ∧ load (s.node i) = some (s.node i) := by
  rw [Network.run_append] at hrun
  obtain ⟨s₁, hs₁, hload⟩ := Option.bind_eq_some_iff.mp hrun
  obtain ⟨s₂, hs₂, hnil⟩ := Network.run_cons_eq_some.mp hload
  obtain ⟨rfl, hp⟩ := load_of_step hs₂
  obtain rfl := Option.some.inj hnil
  exact ⟨hs₁, hp⟩

/-- Coherence of the whole: in every run of the page lock and the page transfer together in which
every hand-over of the page lock is safe, no node in mode `READING` calls `ask_lock(WRITE)` and no
node relies on its copy while an `INVALIDATION` to it is in flight, a load in a critical section
finds what the last store of any node has left, or the initial content if there was none. -/
theorem load_finds_last_store (hlist : ∀ n m, m ∈ nodeList n ↔ m ≠ n) {o : Node} {page : Node → C}
    {es : List (Event Node C)}
    (hrun : Network.run (step nodeList) (initNet o page) (es ++ [.act i .load]) = some s)
    (hok : Network.Meets (step nodeList) (fun s e => (lockInOrder s e && upToDate s e) = true)
      (initNet o page) es)
    (hmode : (s.node i).data.mode ≠ .none) :
    (s.node i).data.content = es.foldl lastStore (page o) := by
  obtain ⟨hrun, hload⟩ := load_of_run hrun
  exact content_of_load hlist hrun hok hload hmode

/-- The node `b` writes `new` and releases the page, and the node `a` fetches it to read it. -/
def fetchRun (a b : Node) (old new : C) : List (Event Node C) :=
  writeRun a b old ++
    [.act b (.store new), .act b .release, .act b .unlock, .deliver (.data (.invalidation a b)),
      .act a (.lock .read), .act a .askLock, .deliver (.lock (.askLock b a a .read)),
      .deliver (.lock (.getLock a b b .read)), .act a .resume, .act a (.sigsevHandler false),
      .deliver (.data (.askPage b a)), .deliver (.data (.recvPage a b new)), .act a .wake,
      .act a .sigsevReturn]

theorem refines_data_transfer_fetchRun :
    ∃ s t, Network.run (step fun n => [n + 1]) (initNet 0 fun _ => 0)
        (fetchRun (0 : Fin 2) 1 0 5) = some s ∧
      Network.run (DataTransfer.step fun n => [n + 1]) (DataTransfer.initNet 0 fun _ => 0)
        (dataRun (fun n => [n + 1]) (initNet 0 fun _ => 0) (fetchRun (0 : Fin 2) 1 0 5)) = some t ∧
      Follows s t := by
  have hrun : Network.run (step fun n => [n + 1]) (initNet 0 fun _ => 0)
    (fetchRun (0 : Fin 2) 1 0 5) = some _ := rfl
  obtain ⟨t, ht, -, hf⟩ := refines_data_transfer hrun (by decide)
  exact ⟨_, t, hrun, ht, hf⟩

theorem load_finds_last_store_fetchRun :
    ∃ s, Network.run (step fun n => [n + 1]) (initNet 0 fun _ => 0)
        (fetchRun (0 : Fin 2) 1 0 5 ++ [.act 0 .load]) = some s ∧
      (s.node 0).data.content = (fetchRun (0 : Fin 2) 1 0 5).foldl lastStore 0 := by
  have hrun : Network.run (step fun n => [n + 1]) (initNet 0 fun _ => 0)
    (fetchRun (0 : Fin 2) 1 0 5 ++ [.act 0 .load]) = some _ := rfl
  exact ⟨_, hrun, load_finds_last_store (by decide) hrun (by decide) (by decide)⟩

end Sigsegv
