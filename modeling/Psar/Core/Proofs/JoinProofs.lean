import Psar.Core.Join
import Psar.Core.Proofs.ExclusionProofs
import Psar.Library.Proofs.JoinProofs

/-!
# Proofs: nodes that join the page lock

The nodes that the page lock names have joined, and exclusion does not depend on whom a node takes
for the one that has the token.
-/

namespace PageLock

variable {Node : Type}

/-! ## Names -/

section Names

variable {known : Node → Prop} {c : CoreInfo Node} {i : Node}

theorem names_addRequest (hc : ∀ n, c.Names n → known n) {who : Node} (hwho : known who)
    (mode : LockType) : ∀ n, (addRequest c who mode).Names n → known n := by
  rintro n (rfl | ⟨r, hr, rfl⟩)
  · exact hc _ (Or.inl rfl)
  · rcases List.mem_cons.mp hr with rfl | hr
    · exact hwho
    · exact hc _ (Or.inr ⟨r, hr, rfl⟩)

/-- The request list gets shorter, and `have_token` names a known node. -/
theorem names_of_subset (hc : ∀ n, c.Names n → known n) {c' : CoreInfo Node}
    (htoken : known c'.haveToken) (hsub : c'.request ⊆ c.request) :
    ∀ n, c'.Names n → known n := by
  rintro n (rfl | ⟨r, hr, rfl⟩)
  · exact htoken
  · exact hc _ (Or.inr ⟨r, hsub hr, rfl⟩)

theorem coreKeeps_nil (hc : ∀ n, c.Names n → known n) : CoreKeeps known (c, []) :=
  ⟨hc, by simp⟩

theorem names_unserializeRequests (hc : ∀ n, c.Names n → known n) {rs : List (Request Node)}
    (hrs : ∀ r ∈ rs, known r.who) : ∀ n, (unserializeRequests c rs).Names n → known n := by
  induction rs generalizing c with
  | nil => exact hc
  | cons r rs ih =>
    obtain ⟨hr, hrs⟩ := List.forall_mem_cons.mp hrs
    exact ih (names_addRequest hc hr r.mode) hrs

variable [DecidableEq Node]

theorem coreKeeps_handleLocalUnlock (hc : ∀ n, c.Names n → known n) (hi : known i) (fr : Node) :
    CoreKeeps known (handleLocalUnlock i c fr) := by
  have hsub : (removeRequest c fr).request ⊆ c.request := List.eraseP_subset
  have htoken : known c.haveToken := hc _ (Or.inl rfl)
  rcases handleLocalUnlock_cases i fr c with ⟨-, h⟩ | ⟨t, ht, h⟩ | ⟨q, t, -, ht, h⟩ <;> rw [h]
  · exact coreKeeps_nil (names_of_subset hc htoken hsub)
  · refine coreKeeps_nil (names_of_subset hc htoken fun r hr => hsub ?_)
    rw [ht]
    exact List.mem_cons_of_mem _ hr
  · have hq : known q := hc q (Or.inr ⟨⟨.write, q⟩, hsub (by simp [ht]), rfl⟩)
    refine ⟨names_of_subset hc hq fun r hr => hsub ?_, ?_⟩
    · rw [ht]
      exact List.mem_cons_of_mem _ hr
    · simp only [List.mem_singleton, forall_eq, Msg.Names]
      rintro n (rfl | rfl | rfl) <;> assumption

theorem coreKeeps_unlockInternal (hc : ∀ n, c.Names n → known n) (hi : known i)
    {r : CoreInfo Node × List (Msg Node)} (h : unlockInternal i c = some r) :
    CoreKeeps known r := by
  have htoken : known c.haveToken := hc _ (Or.inl rfl)
  cases hmode : c.mode with
  | none =>
    rw [unlockInternal, hmode] at h
    cases h
  | reading =>
    rw [unlockInternal, hmode] at h
    dsimp only at h
    split_ifs at h
    · cases h
      exact coreKeeps_handleLocalUnlock hc hi i
    · cases h
      refine ⟨hc, ?_⟩
      simp only [List.mem_singleton, forall_eq, Msg.Names]
      rintro n (rfl | rfl | rfl) <;> assumption
  | writing =>
    cases hrequest : c.request with
    | nil =>
      rw [unlockInternal, hmode, hrequest] at h
      cases h
      exact coreKeeps_nil (names_of_subset hc htoken (List.nil_subset _))
    | cons first rest =>
      obtain ⟨mode, who⟩ := first
      have hwho : known who := hc who (Or.inr ⟨⟨mode, who⟩, by simp [hrequest], rfl⟩)
      rw [unlockInternal_writing hmode hrequest] at h
      cases mode with
      | read =>
        cases h
        refine ⟨names_of_subset hc htoken (List.Subset.refl _), ?_⟩
        intro m hm n hn
        -- a `GET_LOCK` for every reader at the head of the list
        obtain ⟨r, hr, rfl⟩ := List.mem_map.mp hm
        have hrwho : known r.who := hc _ (Or.inr ⟨r, (List.takeWhile_prefix _).subset hr, rfl⟩)
        rcases hn with rfl | rfl | rfl <;> assumption
      | write =>
        cases h
        have hsub : rest ⊆ c.request := by
          rw [hrequest]
          exact List.subset_cons_self _ _
        refine ⟨names_of_subset hc hwho hsub, ?_⟩
        · simp only [List.mem_singleton, forall_eq, Msg.Names]
          rintro n (rfl | rfl | rfl) <;> assumption

theorem coreKeeps_handleAskLock (hc : ∀ n, c.Names n → known n) (hi : known i) {j : Node}
    (hj : known j) (k : LockType) : CoreKeeps known (handleAskLock i c j k) := by
  have htoken : known c.haveToken := hc _ (Or.inl rfl)
  rcases handleAskLock_cases i c j k with ⟨w, -, -, h⟩ | ⟨w, hw, -, h⟩ | ⟨-, -, -, -, -, h⟩ |
    ⟨-, -, -, -, h⟩ | ⟨-, -, -, -, h⟩ | ⟨-, -, h⟩ <;> rw [h]
  · exact coreKeeps_nil (names_addRequest hc hj k)
  · have hmem : w ∈ c.request := List.mem_reverse.mp (List.mem_of_find?_eq_some hw)
    have hwho : known w.who := hc _ (Or.inr ⟨w, hmem, rfl⟩)
    refine ⟨hc, ?_⟩
    simp only [List.mem_singleton, forall_eq, Msg.Names]
    rintro n (rfl | rfl | rfl) <;> assumption
  · refine ⟨names_of_subset hc hj (List.Subset.refl _), ?_⟩
    simp only [List.mem_singleton, forall_eq, Msg.Names]
    rintro n (rfl | rfl | rfl) <;> assumption
  · refine ⟨names_addRequest hc hj .read, ?_⟩
    simp only [List.mem_singleton, forall_eq, Msg.Names]
    rintro n (rfl | rfl | rfl) <;> assumption
  · exact coreKeeps_nil (names_addRequest hc hj k)
  · refine ⟨?_, ?_⟩
    · cases k with
      | read => exact hc
      | write => exact names_of_subset hc hj (List.Subset.refl _)
    · simp only [List.mem_singleton, forall_eq, Msg.Names]
      rintro n (rfl | rfl | rfl) <;> assumption

end Names

/-! ## What a node gets to know -/

section Local

variable [DecidableEq Node] {i : Node} {p : Peer Node} {r : Peer Node × List (Msg Node)}

omit [DecidableEq Node] in
/-- What a step names is in the entry of the page and in the messages, except in `leave_core`. -/
theorem keeps_of_core {known : Node → Prop} (hcore : CoreKeeps known (r.1.core, r.2))
    (hth : ∀ n locked, r.1.thread = .leaving n locked → known n) : naming.Keeps known r := by
  refine ⟨?_, hcore.2⟩
  rintro n (hn | ⟨locked, hn⟩)
  · exact hcore.1 n hn
  · exact hth n locked hn

theorem keeps_askLock {m : LockType} (h : askLock i p m = some r) :
    naming.Keeps (fun n => n = i ∨ p.Names n) r := by
  have hc : ∀ n, p.core.Names n → n = i ∨ p.Names n := fun n hn => Or.inr (Or.inl hn)
  have htoken : p.core.haveToken = i ∨ p.Names p.core.haveToken := hc _ (Or.inl rfl)
  have hi : i = i ∨ p.Names i := Or.inl rfl
  have hmsg : ∀ msg ∈ [Msg.askLock p.core.haveToken i i m], ∀ n, msg.Names n → n = i ∨ p.Names n := by
    simp only [List.mem_singleton, forall_eq, Msg.Names]
    rintro n (rfl | rfl | rfl) <;> assumption
  obtain ⟨-, ⟨-, rfl⟩ | ⟨-, -, -, rfl⟩ | ⟨-, -, -, -, rfl⟩ | ⟨-, -, -, rfl⟩ | ⟨-, -, -, rfl⟩⟩ :=
    askLock_cases h
  · exact keeps_of_core (coreKeeps_nil hc) (by simp)
  · have hmode : ∀ n, ({ p.core with mode := m.toStatus } : CoreInfo Node).Names n →
        n = i ∨ p.Names n := names_of_subset hc htoken (List.Subset.refl _)
    exact keeps_of_core (coreKeeps_nil (names_addRequest hmode hi m)) (by cases m <;> simp)
  · exact keeps_of_core (coreKeeps_nil (names_of_subset hc htoken (List.Subset.refl _))) (by simp)
  · exact keeps_of_core ⟨names_of_subset hc htoken (List.Subset.refl _), hmsg⟩ (by simp)
  · exact keeps_of_core ⟨names_of_subset hc htoken (List.Subset.refl _), hmsg⟩ (by simp)

theorem keeps_act {nodeList : List Node} {a : Action Node} (ha : stays a)
    (h : act nodeList i p a = some r) : naming.Keeps (fun n => n = i ∨ p.Names n) r := by
  have hc : ∀ n, p.core.Names n → n = i ∨ p.Names n := fun n hn => Or.inr (Or.inl hn)
  have hi : i = i ∨ p.Names i := Or.inl rfl
  cases a with
  | askLock m => exact keeps_askLock h
  | resume =>
    obtain ⟨k, -, -, rfl⟩ := resume_eq_some h
    exact keeps_of_core (coreKeeps_nil hc) (by simp)
  | semWake =>
    obtain ⟨-, -, rfl⟩ := semWake_eq_some h
    exact keeps_of_core (coreKeeps_nil hc) (by simp)
  | unlock =>
    obtain ⟨k, x, -, hx, rfl⟩ := unlock_eq_some h
    exact keeps_of_core (coreKeeps_unlockInternal hc hi hx) (by simp)
  | leaveCore d => exact ha.elim
  | leaveFinish =>
    obtain ⟨d, b, hth, -, hleft, -, hout, hcore⟩ := leaveFinish_eq_some h
    have hd : d = i ∨ p.Names d := Or.inr (Or.inr ⟨b, hth⟩)
    refine keeps_of_core ?_ (by simp [hleft])
    rw [hcore, hout]
    split
    · exact coreKeeps_nil (names_of_subset hc hd (List.nil_subset _))
    · exact coreKeeps_nil hc

theorem keeps_handle {m : Msg Node} (h : handle i p m = some r) :
    naming.Keeps (fun n => n = i ∨ p.Names n ∨ m.Names n) r := by
  have hc : ∀ n, p.core.Names n → n = i ∨ p.Names n ∨ m.Names n :=
    fun n hn => Or.inr (Or.inl (Or.inl hn))
  have htoken : p.core.haveToken = i ∨ p.Names p.core.haveToken ∨ m.Names p.core.haveToken :=
    hc _ (Or.inl rfl)
  have hi : i = i ∨ p.Names i ∨ m.Names i := Or.inl rfl
  have hth : ∀ n locked, r.1.thread = .leaving n locked → n = i ∨ p.Names n ∨ m.Names n := by
    rw [handle_thread h]
    exact fun n locked hn => Or.inr (Or.inl (Or.inr ⟨locked, hn⟩))
  have hm : ∀ n, m.Names n → n = i ∨ p.Names n ∨ m.Names n := fun n hn => Or.inr (Or.inr hn)
  refine keeps_of_core ?_ hth
  cases m with
  | askLock d sender j k =>
    obtain ⟨-, rfl⟩ := underMutex_eq_some h
    exact coreKeeps_handleAskLock hc hi (hm j (by simp [Msg.Names])) k
  | getLock d sender j k =>
    obtain ⟨-, rfl⟩ := underMutex_eq_some h
    refine coreKeeps_nil ?_
    have hsender := hm sender (by simp [Msg.Names])
    unfold handleGetLock
    split
    · cases k with
      | read => exact names_of_subset hc hsender (List.Subset.refl _)
      | write => exact names_of_subset hc hi (List.Subset.refl _)
    · exact hc
  | unlock d sender j k =>
    obtain ⟨-, rfl⟩ := underMutex_eq_some h
    unfold handleUnlock
    split
    · have hj := hm j (by simp [Msg.Names])
      refine ⟨hc, ?_⟩
      simp only [List.mem_singleton, forall_eq]
      rintro n (rfl | rfl | rfl) <;> assumption
    · exact coreKeeps_handleLocalUnlock hc hi sender
  | sendState d sender requests =>
    obtain ⟨-, rfl⟩ := underMutex_eq_some h
    refine coreKeeps_nil ?_
    cases requests with
    | none => exact hc
    | some rs =>
      refine names_unserializeRequests hc fun r hr => hm r.who ?_
      exact Or.inr (Or.inr ⟨rs, rfl, r, hr, rfl⟩)
  | delegate d sender delegate =>
    obtain ⟨-, rfl⟩ := underMutex_eq_some h
    have hdelegate := hm delegate (by simp [Msg.Names])
    have hsender := hm sender (by simp [Msg.Names])
    have hnew : ∀ n, n = (if p.core.haveToken = sender then delegate else p.core.haveToken) →
        n = i ∨ p.Names n ∨ Msg.Names (.delegate d sender delegate) n := by
      rintro n rfl
      split_ifs <;> assumption
    refine ⟨names_of_subset hc (hnew _ rfl) List.filter_sublist.subset, ?_⟩
    simp only [List.mem_singleton, forall_eq]
    rintro n (rfl | rfl) <;> assumption
  | delegateAck d sender =>
    cases h
    exact coreKeeps_nil hc

theorem naming_local (nodeList : Node → List Node) :
    naming.Local (protocol nodeList) stays where
  dest := fun m => by
    cases m <;> simp [naming, Msg.Names, protocol, Msg.dest]
  act := fun i p a r ha h => keeps_act ha h
  handle := fun i p m r h => keeps_handle h

end Local

/-! ## Runs -/

section Run

variable [DecidableEq Node] {nodeList : Node → List Node} {owner : Node} {s : JoinNet Node}
  {es : List (JoinEvent Node)}

/-- It does not matter whom a node that does nothing takes for the one that has the token. -/
theorem inv_join [Fintype Node] {t : Net Node} (h : Inv t) {i contact : Node}
    (hi : t.node i = joinCore owner) (hio : i ≠ owner) (hcontact : contact ≠ i) :
    Inv (t.fire i t.msgs (joinCore contact, [])) := by
  refine inv_fire h (Network.perm_act _) ?_
  rw [hi]
  exact
    { local_ := ⟨rfl, by simp [joinCore, initCore], by simp [joinCore, Peer.granted],
        by simp [joinCore, Peer.waits], rfl⟩
      msgs := by simp
      token := by simp [tokenAt, Peer.holds, joinCore, initCore, hcontact, Ne.symm hio]
      pending := by simp [pendingAt, pendingIn, joinCore, initCore, Peer.waits]
      readers := by simp [readerAt, recordedAt, Peer.granted, Peer.serves, joinCore, initCore] }

omit [DecidableEq Node] in
theorem names_joinCore {contact n : Node} (h : (joinCore contact).Names n) : n = contact := by
  simpa [Peer.Names, CoreInfo.Names, joinCore, initCore] using h

theorem closed_joinInit : naming.Closed (joinInit owner) where
  node := fun i p hp n hn => by
    obtain ⟨-, rfl⟩ : i = owner ∧ joinCore owner = p := by
      simpa [joinInit, Option.ite_none_right_eq_some] using hp
    simp [joinInit, names_joinCore hn]
  msgs := by simp [joinInit]

theorem view_joinInit : Network.view (joinCore owner) (joinInit owner) = initNet owner := by
  unfold Network.view joinInit initNet
  congr 1
  funext i
  by_cases hi : i = owner <;> simp [hi, joinCore]

omit [DecidableEq Node] in
theorem stays_of_noLeave {i : Node} {a : Action Node} (h : noLeave (.act i a) = true) :
    stays a := by
  cases a <;> simp_all [stays, noLeave]

/-- Every message reaches a node: in every run in which nodes join through nodes that have joined
and nobody leaves, the messages in flight go to nodes that have joined. -/
theorem messages_reach_members
    (hrun : Network.run (joinStep nodeList) (joinInit owner) es = some s)
    (hok : Network.Meets (joinStep nodeList)
      (Network.JoinOk (joinCore owner) fun _ e => noLeave e = true) (joinInit owner) es)
    {m : Msg Node} (hm : m ∈ s.msgs) : (s.node m.dest).isSome = true := by
  obtain ⟨hclosed, -⟩ := Network.join_run_invariant (I := fun _ => True)
    (naming_local nodeList) (fun _ _ _ ha => stays_of_noLeave ha) (fun _ _ hn => names_joinCore hn)
    (fun _ _ _ _ _ _ => trivial) (o := owner) (fun _ _ _ _ _ _ _ => trivial) closed_joinInit
    (by simp [joinInit]) trivial hok hrun
  exact hclosed.msgs m hm _ ((naming_local nodeList).dest m)

/-- Exclusion with joins: in every run in which nodes join through nodes that have joined, nobody
leaves, every hand-over is safe and no node in mode `READING` calls `ask_lock(WRITE)`, two nodes
hold the lock at the same time only for reading. -/
theorem joins_keep_exclusion [Fintype Node]
    (hrun : Network.run (joinStep nodeList) (joinInit owner) es = some s)
    (hok : Network.Meets (joinStep nodeList)
      (Network.JoinOk (joinCore owner) fun t e => (noLeave e && inOrder t e) = true)
      (joinInit owner) es)
    {i j : Node} (hij : j ≠ i) {p q : Peer Node} (hi : s.node i = some p) (hj : s.node j = some q)
    {k k' : LockType} (hp : p.thread = .returned k) (hq : q.thread = .returned k') :
    k = .read ∧ k' = .read := by
  have hallowed : ∀ (t : Net Node) i a, (noLeave (.act i a : Event Node) && inOrder t (.act i a)) =
      true → stays a := fun t i a ha => stays_of_noLeave (Bool.and_eq_true_iff.mp ha).1
  have hstep : ∀ (t : Net Node) e t', Inv t → (noLeave e && inOrder t e) = true →
      step nodeList t e = some t' → Inv t' := by
    intro t e t' h he hstep
    obtain ⟨hl, ho⟩ := Bool.and_eq_true_iff.mp he
    exact inv_step h hl ho hstep
  have hview : Inv (Network.view (joinCore owner) (joinInit owner)) := by
    rw [view_joinInit]
    exact inv_initNet owner
  obtain ⟨-, h⟩ := Network.join_run_invariant (naming_local nodeList) hallowed
    (fun _ _ hn => names_joinCore hn) hstep (fun _ _ _ h hi hio hc => inv_join h hi hio hc)
    closed_joinInit (by simp [joinInit]) hview hok hrun
  refine h.readers_together hij ?_ ?_
  · rw [Network.view_node_of_some hi]
    exact hp
  · rw [Network.view_node_of_some hj]
    exact hq

end Run

/-! ## Two nodes that join one after the other -/

/-- `b` joins through `a`, `c` joins through `b`, and `b` asks for the page. -/
def joinAsk (a b c : Node) : List (JoinEvent Node) :=
  [.act b (.join a), .act c (.join b), .act b (.act (.askLock .read))]

/-- `b` reads, and `c` asks `b`, which passes the request on to `a`. -/
def joinRead (a b c : Node) : List (JoinEvent Node) :=
  joinAsk a b c ++ [.deliver (.askLock a b b .read), .deliver (.getLock b a a .read),
    .act b (.act .resume), .act c (.act (.askLock .read)), .deliver (.askLock b c c .read),
    .deliver (.askLock a b c .read), .deliver (.getLock c a a .read), .act c (.act .resume)]

theorem messages_reach_members_joinAsk :
    ∃ s : JoinNet (Fin 3), Network.run (joinStep fun _ => []) (joinInit 0) (joinAsk 0 1 2) = some s ∧
      Msg.askLock 0 1 1 .read ∈ s.msgs ∧ (s.node 0).isSome = true := by
  have hrun : Network.run (joinStep fun _ => []) (joinInit 0) (joinAsk (0 : Fin 3) 1 2) = some _ :=
    rfl
  have hm : Msg.askLock (0 : Fin 3) 1 1 .read ∈ [Msg.askLock 0 1 1 .read] := List.mem_singleton.mpr rfl
  exact ⟨_, hrun, hm, messages_reach_members hrun (by decide) hm⟩

theorem joins_keep_exclusion_joinRead :
    ∃ (s : JoinNet (Fin 3)) (p q : Peer (Fin 3)) (k k' : LockType),
      Network.run (joinStep fun _ => []) (joinInit 0) (joinRead 0 1 2) = some s ∧
      s.node 1 = some p ∧ s.node 2 = some q ∧ p.thread = .returned k ∧ q.thread = .returned k' ∧
      k = .read ∧ k' = .read := by
  have hrun : Network.run (joinStep fun _ => []) (joinInit 0) (joinRead (0 : Fin 3) 1 2) = some _ :=
    rfl
  have hne : (2 : Fin 3) ≠ 1 := by decide
  exact ⟨_, _, _, .read, .read, hrun, rfl, rfl, rfl, rfl,
    joins_keep_exclusion hrun (by decide) hne rfl rfl rfl rfl⟩

end PageLock
