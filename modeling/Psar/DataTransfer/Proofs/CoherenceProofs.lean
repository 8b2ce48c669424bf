import Psar.DataTransfer.Coherence
import Psar.DataTransfer.Proofs.OwnershipProofs

/-!
# Proofs: the content of the page

As long as no node relies on its copy of the page while an invalidation to it is in flight, every
read finds what the last write has left.
-/

namespace DataTransfer

open PageLock (LockType LockStatus)

variable {Node C : Type}

/-! ## One node -/

section Node

variable {p : Peer Node C}

/-- A node that may write is in its critical section. -/
theorem PageLocal.inside_of_readWrite (h : PageLocal p) (hp : p.prot = .readWrite) :
    p.inside = true := by
  obtain ⟨hmode, hth⟩ := h.prot hp
  simp [Peer.inside, hmode, hth]

/-- A thread in `sigsev_handler` is in its critical section. -/
theorem PageLocal.inside_of_thread (h : PageLocal p) (hr : p.thread ≠ .running)
    (ha : p.thread ≠ .asking) : p.inside = true := by
  simp [Peer.inside, h.mode hr, ha]

theorem PageLocal.inside_of_waits (h : PageLocal p) (hw : p.waits = true) : p.inside = true := by
  cases hth : p.thread with
  | syncing writing => exact h.inside_of_thread (by simp [hth]) (by simp [hth])
  | _ => simp [Peer.waits, hth] at hw

/-- A thread that reads its copy without a check is in its critical section. -/
theorem PageLocal.inside_of_valid (h : PageLocal p) (hv : p.valid = true) : p.inside = true := by
  cases hth : p.thread with
  | running =>
    have hmode : p.mode ≠ .none := by
      simp only [Peer.valid, hth, decide_eq_true_eq] at hv
      exact hv.1
    simp [Peer.inside, hmode, hth]
  | asking => simp [Peer.valid, hth] at hv
  | _ => exact h.inside_of_thread (by simp [hth]) (by simp [hth])

end Node

/-! ## Local moves -/

/-- What a step other than a write and a publication does to the copy of the node: it relies on the
copy after the step only if it did so before, or if the copy is the current one. -/
structure PageMove [DecidableEq Node] (v : C) (i : Node) (p : Peer Node C) (ms : List (Msg Node C))
    (r : Peer Node C × List (Msg Node C)) : Prop where
  dest : ∀ m ∈ ms, m.dest = i
  local_ : PageLocal r.1
  fresh : r.1.trusts i →
    (p.trusts i ∧ r.1.content = p.content ∧ ∀ y, Msg.invalidation i y ∉ ms) ∨
    (r.1.content = v ∧ p.inside = true)
  valid : r.1.valid = true → r.1.content = v
  recv : ∀ d o page, Msg.recvPage d o page ∈ r.2 → page = v
  writer : r.1.thread = .running → r.1.prot = .readWrite → p.thread = .running ∧ p.prot = .readWrite

variable [DecidableEq Node]

section Move

variable {v : C} {i : Node} {p p' : Peer Node C}

theorem pageMove_lock {k : LockType} (h : lock p k = some p') :
    PageMove v i p [] (p', []) := by
  obtain ⟨hth, ⟨-, rfl⟩ | ⟨hmode, rfl⟩⟩ := lock_cases h
  · refine ⟨by simp, ⟨fun _ => by cases k <;> simp [LockType.toStatus], by simp, by simp⟩,
      fun ht => Or.inl ⟨?_, rfl, by simp⟩, by simp [Peer.valid], by simp, by simp⟩
    simp only [Peer.trusts] at ht ⊢
    tauto
  · refine ⟨by simp, ⟨fun _ => hmode, by simp [hth], by simp⟩,
      fun ht => Or.inl ⟨?_, rfl, by simp⟩, by simp [Peer.valid, hth], by simp, by simp⟩
    simp only [Peer.trusts] at ht ⊢
    tauto

theorem pageMove_unlock (h : unlock p = some p') : PageMove v i p [] (p', []) := by
  obtain ⟨hth, -, rfl⟩ := unlock_eq_some h
  refine ⟨by simp, ⟨by simp [hth], by simp [hth], by simp⟩, fun ht => Or.inl ⟨?_, rfl, by simp⟩,
    by simp [Peer.valid, hth], by simp, by simp⟩
  simp only [Peer.trusts] at ht ⊢
  tauto

/-- A node enters its critical section with the page protected, or with the current content. -/
theorem pageMove_grant (hp : PageLocal p) (hv : p.prot ≠ .none → p.content = v)
    (h : grant p = some p') : PageMove v i p [] (p', []) := by
  obtain ⟨hth, rfl⟩ := grant_eq_some h
  have hprot : p.prot ≠ .readWrite := fun hrw => (hp.prot hrw).2 hth
  refine ⟨by simp, ⟨by simp, by simp, fun hrw => absurd hrw hprot⟩,
    fun ht => Or.inl ⟨ht, rfl, by simp⟩, fun hvalid => hv ?_, by simp,
    fun _ hrw => absurd hrw hprot⟩
  simp only [Peer.valid, decide_eq_true_eq] at hvalid
  exact hvalid.2

/-- `sync_page` returns at once only with the current content. -/
theorem pageMove_sigsevHandler {writing : Bool} {r : Peer Node C × List (Msg Node C)}
    (hp : PageLocal p) (hv : p.owner = i ∨ p.state = true → p.content = v)
    (h : sigsevHandler i p writing = some r) : PageMove v i p [] r := by
  obtain ⟨hth, hmode, -, ⟨hvalid, rfl⟩ | ⟨-, -, rfl⟩⟩ := sigsevHandler_cases h
  · exact ⟨by simp, ⟨fun _ => hmode, by simp, fun hrw => ⟨(hp.prot hrw).1, by simp⟩⟩,
      fun ht => Or.inl ⟨ht, rfl, by simp⟩, fun _ => hv hvalid, by simp, by simp⟩
  · exact ⟨by simp, ⟨fun _ => hmode, by simp, fun hrw => ⟨(hp.prot hrw).1, by simp⟩⟩,
      fun ht => Or.inl ⟨ht, rfl, by simp⟩, by simp [Peer.valid], by simp, by simp⟩

theorem pageMove_wake (hp : PageLocal p) (hv : p.valid = true → p.content = v)
    (h : wake p = some p') : PageMove v i p [] (p', []) := by
  obtain ⟨writing, hth, hpred, rfl⟩ := wake_eq_some h
  exact ⟨by simp, ⟨fun _ => hp.mode (by simp [hth]), by simp, fun hrw => ⟨(hp.prot hrw).1, by simp⟩⟩,
    fun ht => Or.inl ⟨ht, rfl, by simp⟩, fun _ => hv (by simp [Peer.valid, hth, hpred]), by simp,
    by simp⟩

theorem pageMove_protect (hp : PageLocal p) (hv : p.valid = true → p.content = v)
    (h : protect p = some p') : PageMove v i p [] (p', []) := by
  rcases protect_cases h with ⟨hth, hmode, rfl⟩ | ⟨writing, hth, rfl⟩
  · have hpage : p.content = v := hv (by simp [Peer.valid, hth])
    have hin : p.inside = true := hp.inside_of_thread (by simp [hth]) (by simp [hth])
    exact ⟨by simp, ⟨fun _ => by simp [hmode], fun _ => hmode, fun _ => ⟨hmode, by simp⟩⟩,
      fun _ => Or.inr ⟨hpage, hin⟩, fun _ => hpage, by simp, by simp⟩
  · have hpage : p.content = v := hv (by simp [Peer.valid, hth])
    have hin : p.inside = true := hp.inside_of_thread (by simp [hth]) (by simp [hth])
    exact ⟨by simp, ⟨by simp, by simp, by simp⟩, fun _ => Or.inr ⟨hpage, hin⟩, fun _ => hpage,
      by simp, by simp⟩

/-- A step that changes nothing at the node and sends no page. -/
theorem pageMove_refl (hp : PageLocal p) (hv : p.valid = true → p.content = v)
    {ms ms' : List (Msg Node C)} (hdest : ∀ m ∈ ms, m.dest = i)
    (hinv : ∀ y, Msg.invalidation i y ∉ ms) (hrecv : ∀ d o page, Msg.recvPage d o page ∉ ms') :
    PageMove v i p ms (p, ms') :=
  ⟨hdest, hp, fun ht => Or.inl ⟨ht, rfl, hinv⟩, hv, fun d o page hm => absurd hm (hrecv d o page),
    fun hth hrw => ⟨hth, hrw⟩⟩

/-- After an invalidation the node does not rely on its copy. -/
theorem pageMove_invalidation (hp : PageLocal p) (hv : p.valid = true → p.content = v)
    {d sender : Node} (hs : sender ≠ d) :
    PageMove v d p [.invalidation d sender] (invalidationHandler d p sender, []) := by
  refine ⟨by simp [Msg.dest], ⟨hp.mode, hp.writable, ?_⟩, ?_, fun hvalid => hv ?_, by simp,
    ?_⟩
  · intro hrw
    cases hrw
  · intro ht
    simp [invalidationHandler, setNewOwner, Peer.trusts, hs] at ht
  · cases hth : p.thread <;>
      simp_all [invalidationHandler, setNewOwner, Peer.valid]
  · intro _ hrw
    cases hrw

/-- `ASK_PAGE_handler` answers only with the current content. -/
theorem pageMove_askPage (hp : PageLocal p) (hv : p.valid = true → p.content = v) {d : Node}
    (ho : p.owner = d → p.content = v) (y : Node) :
    PageMove v d p [.askPage d y] (askPageHandler d p y) := by
  rcases askPageHandler_cases d p y with ⟨hown, b, hb, heq⟩ | ⟨-, heq⟩
  · rw [heq]
    refine ⟨by simp [Msg.dest], ⟨hp.mode, hp.writable, fun hrw => absurd hrw hb⟩,
      fun _ => Or.inl ⟨Or.inl hown, rfl, by simp⟩, fun _ => ho hown, ?_, fun _ hrw => absurd hrw hb⟩
    simpa using fun d o page _ _ hpage => hpage.trans (ho hown)
  · rw [heq]
    exact pageMove_refl hp hv (by simp [Msg.dest]) (by simp) (by simp)

/-- The page that arrives is the current content. -/
theorem pageMove_recvPage (hp : PageLocal p) (hw : p.waits = true) (d o : Node) :
    PageMove v d p [.recvPage d o v] (updatePage p o v, []) := by
  obtain ⟨b, st, hb, heq⟩ := updatePage_eq p o v
  rw [heq]
  exact ⟨by simp [Msg.dest], ⟨hp.mode, hp.writable, fun hrw => absurd hrw hb⟩,
    fun _ => Or.inr ⟨rfl, hp.inside_of_waits hw⟩, fun _ => rfl, by simp,
    fun _ hrw => absurd hrw hb⟩

end Move

/-! ## Steps -/

section Step

variable {v : C} {s s' : Net Node C}

/-- A node that stays in its critical section keeps the others as they are. -/
theorem Coherent.alone_of_inside (h : Coherent v s) {i : Node} {p' : Peer Node C}
    (hin : p'.inside = true → (s.node i).inside = true ∧ p'.mode = (s.node i).mode) :
    ∀ m, m ≠ i → p'.inside = true → (s.node m).inside = true →
      p'.mode ≠ .writing ∧ (s.node m).mode ≠ .writing := by
  intro m hm hp' hm'
  obtain ⟨hi, hmode⟩ := hin hp'
  refine ⟨fun hw => hm ?_, fun hw => hm (h.alone m i hm' hi hw)⟩
  exact (h.alone i m hi hm' (hmode ▸ hw)).symm

theorem alone_fire (h : Coherent v s) {i : Node} {rest : List (Msg Node C)}
    {r : Peer Node C × List (Msg Node C)}
    (halone : ∀ m, m ≠ i → r.1.inside = true → (s.node m).inside = true →
      r.1.mode ≠ .writing ∧ (s.node m).mode ≠ .writing) (n m : Node)
    (hn : ((s.fire i rest r).node n).inside = true)
    (hm : ((s.fire i rest r).node m).inside = true)
    (hw : ((s.fire i rest r).node n).mode = .writing) : n = m := by
  by_cases hni : n = i <;> by_cases hmi : m = i
  · rw [hni, hmi]
  · subst hni
    rw [Network.fire_node_self] at hn hw
    rw [Network.fire_node_ne s rest r hmi] at hm
    exact absurd hw (halone m hmi hn hm).1
  · subst hmi
    rw [Network.fire_node_self] at hm
    rw [Network.fire_node_ne s rest r hni] at hn hw
    exact absurd hw (halone n hni hm hn).2
  · rw [Network.fire_node_ne s rest r hni] at hn hw
    rw [Network.fire_node_ne s rest r hmi] at hm
    exact h.alone n m hn hm hw

theorem Coherent.move (h : Coherent v s) {i : Node} {ms rest : List (Msg Node C)}
    {r : Peer Node C × List (Msg Node C)} (hp : s.msgs.Perm (ms ++ rest))
    (hmove : PageMove v i (s.node i) ms r)
    (halone : ∀ m, m ≠ i → r.1.inside = true → (s.node m).inside = true →
      r.1.mode ≠ .writing ∧ (s.node m).mode ≠ .writing) : Coherent v (s.fire i rest r) := by
  have hother : ∀ n, n ≠ i → invalidated s n = true → invalidated (s.fire i rest r) n = true :=
    fun n hn hinv => invalidated_fire hp hinv (fun y hy => hn (hmove.dest _ hy)) r
  refine ⟨Network.forall_node_fire h.local_ hmove.local_, alone_fire h halone, ?_,
    Network.forall_node_fire (L := fun _ (p : Peer Node C) => p.valid = true → p.content = v)
      h.valid hmove.valid, ?_, ?_⟩
  · intro n ht hinv
    by_cases hni : n = i
    · subst hni
      rw [Network.fire_node_self] at ht ⊢
      rcases hmove.fresh ht with ⟨htp, hpage, hms⟩ | ⟨hpage, -⟩
      · rw [hpage]
        refine h.fresh n htp (Bool.eq_false_iff.mpr ?_)
        intro hs
        exact Bool.eq_false_iff.mp hinv (invalidated_fire hp hs hms r)
      · exact hpage
    · rw [Network.fire_node_ne s rest r hni] at ht ⊢
      exact h.fresh n ht (Bool.eq_false_iff.mpr fun hs => Bool.eq_false_iff.mp hinv (hother n hni hs))
  · intro d o page hm
    rcases List.mem_append.mp hm with hm | hm
    · exact h.recv d o page (hp.symm.subset (List.mem_append_right _ hm))
    · exact hmove.recv d o page hm
  · intro n hth hrw m hmn ht
    by_cases hni : n = i
    · subst hni
      rw [Network.fire_node_self] at hth hrw
      rw [Network.fire_node_ne s rest r hmn] at ht
      obtain ⟨hth, hrw⟩ := hmove.writer hth hrw
      exact hother m hmn (h.writer n hth hrw m hmn ht)
    · rw [Network.fire_node_ne s rest r hni] at hth hrw
      by_cases hmi : m = i
      · subst hmi
        rw [Network.fire_node_self] at ht
        rcases hmove.fresh ht with ⟨htp, -, hms⟩ | ⟨-, hin⟩
        · exact invalidated_fire hp (h.writer n hth hrw m hmn htp) hms r
        · -- nobody else is in the critical section of a writer
          have hn := (h.local_ n).inside_of_readWrite hrw
          exact absurd (h.alone n m hn hin ((h.local_ n).prot hrw).1) hni
      · rw [Network.fire_node_ne s rest r hmi] at ht
        exact hother m hmi (h.writer n hth hrw m hmn ht)

/-- After a write, the copy of the writer is the only one that a node relies on. -/
theorem Coherent.write [Fintype Node] (h : Coherent v s) (hf : Flight s) {i : Node} {page : C}
    {p' : Peer Node C} (hr : write (s.node i) page = some p') :
    Coherent page (s.fire i s.msgs (p', [])) := by
  obtain ⟨hth, -, hrw, rfl⟩ := write_eq_some hr
  have hin := (h.local_ i).inside_of_readWrite hrw
  have hw := ((h.local_ i).prot hrw).1
  have halone : ∀ n, (s.node n).inside = true → n = i := fun n hn =>
    (h.alone i n hin hn hw).symm
  have hmsgs : (s.fire i s.msgs ({ s.node i with content := page }, [])).msgs = s.msgs := by simp
  have hinv : ∀ n, invalidated (s.fire i s.msgs ({ s.node i with content := page }, [])) n =
      invalidated s n := fun n => by simp only [invalidated, hmsgs]
  refine ⟨Network.forall_node_fire h.local_ ?_, alone_fire h (h.alone_of_inside fun _ => ⟨hin, rfl⟩),
    ?_, ?_, ?_, ?_⟩
  · exact ⟨(h.local_ i).mode, (h.local_ i).writable, (h.local_ i).prot⟩
  · intro n ht hn
    by_cases hni : n = i
    · rw [hni, Network.fire_node_self]
    · rw [Network.fire_node_ne s s.msgs _ hni] at ht
      rw [hinv, Bool.eq_false_iff] at hn
      exact absurd (h.writer i hth hrw n hni ht) hn
  · intro n hn
    by_cases hni : n = i
    · rw [hni, Network.fire_node_self]
    · rw [Network.fire_node_ne s s.msgs _ hni] at hn
      exact absurd (halone n ((h.local_ n).inside_of_valid hn)) hni
  · intro d o x hm
    -- an answer in flight would be to a node in its critical section
    rw [hmsgs] at hm
    have hwaits := hf.waits_of_mem hm (y := d) (by simp [pendingMsg])
    obtain rfl : d = i := halone d ((h.local_ d).inside_of_waits hwaits)
    simp [Peer.waits, hth] at hwaits
  · intro n hthn hrwn m hmn ht
    by_cases hni : n = i
    · subst hni
      rw [Network.fire_node_ne s s.msgs _ hmn] at ht
      rw [hinv]
      exact h.writer n hth hrw m hmn ht
    · rw [Network.fire_node_ne s s.msgs _ hni] at hrwn
      exact absurd (halone n ((h.local_ n).inside_of_readWrite hrwn)) hni

/-- A publication invalidates the copies of all others. -/
theorem Coherent.publish (h : Coherent v s) {i : Node} {nodeList : List Node}
    (hlist : ∀ m, m ≠ i → m ∈ nodeList) {r : Peer Node C × List (Msg Node C)}
    (hr : publish i nodeList (s.node i) = some r) : Coherent v (s.fire i s.msgs r) := by
  obtain ⟨hth, rfl⟩ := publish_eq_some hr
  have hp := h.local_ i
  have hw := hp.writable hth
  have hin := hp.inside_of_thread (by simp [hth]) (by simp [hth])
  have hpage : (s.node i).content = v := h.valid i (by simp [Peer.valid, hth])
  have hinv : ∀ n, n ≠ i → invalidated (s.fire i s.msgs
      ({ s.node i with owner := i, state := true, thread := .running },
        sendInvalidation i nodeList)) n = true := fun n hn =>
    invalidated_iff.mpr ⟨i, List.mem_append_right _ (mem_sendInvalidation.mpr ⟨n, hlist n hn, rfl⟩)⟩
  refine ⟨Network.forall_node_fire h.local_ ?_, alone_fire h (h.alone_of_inside fun _ => ⟨hin, rfl⟩),
    ?_, ?_, ?_, ?_⟩
  · exact ⟨by simp, by simp, fun hrw => ⟨hw, by simp⟩⟩
  · intro n ht hn
    by_cases hni : n = i
    · rw [hni, Network.fire_node_self]
      exact hpage
    · rw [hinv n hni] at hn
      cases hn
  · exact Network.forall_node_fire (L := fun _ (p : Peer Node C) => p.valid = true → p.content = v)
      h.valid fun _ => hpage
  · intro d o x hm
    rcases List.mem_append.mp hm with hm | hm
    · exact h.recv d o x hm
    · obtain ⟨n, -, heq⟩ := mem_sendInvalidation.mp hm
      cases heq
  · intro n _ hrwn m hmn _
    by_cases hni : n = i
    · exact hinv m fun hm => hmn (hm.trans hni.symm)
    · rw [Network.fire_node_ne s s.msgs _ hni] at hrwn
      exact absurd (h.alone i n hin ((h.local_ n).inside_of_readWrite hrwn) hw).symm hni

variable [Fintype Node] [DecidableEq C] {nodeList : Node → List Node}

theorem coherent_act (hlist : ∀ n m, m ∈ nodeList n ↔ m ≠ n) (h : Coherent v s) (hf : Flight s)
    {i : Node} {a : Action C} (hex : exclusive s (.act i a) = true)
    (hup : upToDate s (.act i a) = true) {r : Peer Node C × List (Msg Node C)}
    (hr : act (nodeList i) i (s.node i) a = some r) :
    Coherent (lastContent v (.act i a : Event Node C)) (s.fire i s.msgs r) := by
  have hp := h.local_ i
  have hv := h.valid i
  -- most actions do not enter the critical section
  have hmove : ∀ r, PageMove v i (s.node i) [] r →
      (r.1.inside = true → (s.node i).inside = true ∧ r.1.mode = (s.node i).mode) →
      Coherent v (s.fire i s.msgs r) := fun r hmove hin =>
    h.move (Network.perm_act _) hmove (h.alone_of_inside hin)
  cases a with
  | lock k =>
    obtain ⟨p', hp', rfl⟩ := Option.map_eq_some_iff.mp hr
    refine hmove _ (pageMove_lock hp') ?_
    obtain ⟨hth, ⟨-, rfl⟩ | ⟨hmode, rfl⟩⟩ := lock_cases hp'
    · simp [Peer.inside]
    · simp [Peer.inside, hth, hmode]
  | grant =>
    obtain ⟨p', hp', rfl⟩ := Option.map_eq_some_iff.mp hr
    obtain ⟨hth, heq⟩ := grant_eq_some hp'
    refine h.move (Network.perm_act _) (pageMove_grant hp (fun hprot => ?_) hp') ?_
    · have hinv : (s.node i).prot = .none ∨ invalidated s i = false := by simpa [upToDate] using hup
      exact h.fresh i (Or.inr (Or.inr hprot)) (hinv.resolve_left hprot)
    · intro m hm _ hin
      have hread : ∀ j, j ≠ i → (s.node j).inside = true →
          (s.node i).mode = .reading ∧ (s.node j).mode = .reading := by
        simpa [exclusive] using hex
      obtain ⟨hi, hj⟩ := hread m hm hin
      simp [heq, hi, hj]
  | unlock =>
    obtain ⟨p', hp', rfl⟩ := Option.map_eq_some_iff.mp hr
    refine hmove _ (pageMove_unlock hp') ?_
    obtain ⟨-, -, rfl⟩ := unlock_eq_some hp'
    simp [Peer.inside]
  | sigsevHandler writing =>
    have hinv : (s.node i).owner ≠ i ∧ (s.node i).state = false ∨ invalidated s i = false := by
      simpa [upToDate] using hup
    refine hmove _ (pageMove_sigsevHandler hp (fun hvalid => ?_) hr) ?_
    · refine h.fresh i (by simp only [Peer.trusts]; tauto) (hinv.resolve_left ?_)
      intro hno
      rcases hvalid with ho | hst
      · exact hno.1 ho
      · simp [hno.2] at hst
    · obtain ⟨hth, hmode, -, ⟨-, rfl⟩ | ⟨-, -, rfl⟩⟩ := sigsevHandler_cases hr <;>
        simp [Peer.inside, hth, hmode]
  | wake =>
    obtain ⟨p', hp', rfl⟩ := Option.map_eq_some_iff.mp hr
    refine hmove _ (pageMove_wake hp hv hp') ?_
    obtain ⟨writing, hth, -, rfl⟩ := wake_eq_some hp'
    simp [Peer.inside, hth]
  | protect =>
    obtain ⟨p', hp', rfl⟩ := Option.map_eq_some_iff.mp hr
    refine hmove _ (pageMove_protect hp hv hp') ?_
    rcases protect_cases hp' with ⟨hth, -, rfl⟩ | ⟨writing, hth, rfl⟩ <;> simp [Peer.inside, hth]
  | publish => exact h.publish (fun m hm => (hlist i m).mpr hm) hr
  | write page =>
    obtain ⟨p', hp', rfl⟩ := Option.map_eq_some_iff.mp hr
    exact h.write hf hp'
  | read page =>
    obtain ⟨p', hp', rfl⟩ := Option.map_eq_some_iff.mp hr
    obtain ⟨-, -, -, -, rfl⟩ := read_eq_some hp'
    exact hmove _ (pageMove_refl hp hv (by simp) (by simp) (by simp)) fun hin => ⟨hin, rfl⟩

theorem coherent_step (hlist : ∀ n m, m ∈ nodeList n ↔ m ≠ n) {e : Event Node C}
    (h : Coherent v s) (hf : Flight s) (hex : exclusive s e = true) (hup : upToDate s e = true)
    (hstep : step nodeList s e = some s') : Coherent (lastContent v e) s' := by
  rcases step_cases hstep with ⟨i, a, r, rfl, hr, rfl⟩ | ⟨m, rfl, hm, rfl⟩
  · exact coherent_act hlist h hf hex hup hr
  · have hp := h.local_ m.dest
    have hv := h.valid m.dest
    cases m with
    | invalidation d sender =>
      exact h.move (Network.perm_deliver hm) (pageMove_invalidation hp hv (hf.invalidation _ _ hm))
        (h.alone_of_inside fun hin => ⟨hin, rfl⟩)
    | askPage d y =>
      have hinv : (s.node d).owner ≠ d ∨ invalidated s d = false := by simpa [upToDate] using hup
      refine h.move (Network.perm_deliver hm) (pageMove_askPage hp hv (fun ho => ?_) y)
        (h.alone_of_inside ?_)
      · exact h.fresh d (Or.inl ho) (hinv.resolve_left fun hno => hno ho)
      · rcases askPageHandler_cases d (s.node d) y with ⟨-, b, -, heq⟩ | ⟨-, heq⟩ <;>
          simp only [handle, Msg.dest, heq] <;> exact fun hin => ⟨hin, trivial⟩
    | recvPage d o page =>
      obtain rfl := h.recv d o page hm
      have hw := hf.waits_of_mem hm (y := d) (by simp [pendingMsg])
      refine h.move (Network.perm_deliver hm) (pageMove_recvPage hp hw d o) (h.alone_of_inside ?_)
      obtain ⟨b, st, -, heq⟩ := updatePage_eq (s.node d) o page
      simp only [handle, Msg.dest, heq]
      exact fun hin => ⟨hin, trivial⟩

end Step

/-! ## Runs -/

theorem coherent_initNet (o : Node) (page : Node → C) : Coherent (page o) (initNet o page) := by
  have hmode : ∀ n, ((initNet o page).node n).mode = .none := fun n => rfl
  have hth : ∀ n, ((initNet o page).node n).thread = .running := fun n => rfl
  have hprot : ∀ n, ((initNet o page).node n).prot ≠ .readWrite := fun n => by
    by_cases hn : n = o <;> simp [initNet, initDataTransfer, hn]
  refine ⟨fun n => ⟨fun h => absurd (hth n) h, ?_, fun hrw => absurd hrw (hprot n)⟩, ?_, ?_, ?_,
    by simp [initNet], fun n _ hrw => absurd hrw (hprot n)⟩
  · simp [hth n]
  · intro n m hn
    simp [Peer.inside, hmode n] at hn
  · intro n ht _
    by_cases hn : n = o
    · simp [initNet, initDataTransfer, hn]
    · simp [Peer.trusts, initNet, initDataTransfer, hn, Ne.symm hn] at ht
  · intro n hn
    simp [Peer.valid, hmode n, hth n] at hn

section Run

variable [Fintype Node] [DecidableEq C] {nodeList : Node → List Node} {t : Net Node C}

/-- Memory coherence: in every run in which the lock layer keeps readers and writers apart and no
node relies on its copy of the page while an `INVALIDATION` to it is in flight, a read inside a
critical section finds the content that the last write has left, or the initial content if nobody
wrote. -/
theorem read_finds_last_content (hlist : ∀ n m, m ∈ nodeList n ↔ m ≠ n) {o : Node} {page : Node → C}
    {es : List (Event Node C)} {i : Node} {x : C}
    (hrun : Network.run (step nodeList) (initNet o page) (es ++ [.act i (.read x)]) = some t)
    (hok : Network.Meets (step nodeList) (fun s e => exclusive s e && upToDate s e)
      (initNet o page) es) : x = es.foldl lastContent (page o) := by
  rw [Network.run_append] at hrun
  obtain ⟨s, hs, hread⟩ := Option.bind_eq_some_iff.mp hrun
  obtain ⟨h, -⟩ : Coherent (es.foldl lastContent (page o)) s ∧ Flight s := by
    refine Network.run_simulation (R := fun s v => Coherent v s ∧ Flight s)
      (fun s v e s' h hok hstep => ?_) ⟨coherent_initNet o page, flight_initNet o page⟩ hok hs
    simp only [Bool.and_eq_true] at hok
    exact ⟨coherent_step hlist h.1 h.2 hok.1 hok.2 hstep,
      flight_step (fun n m hm => (hlist n m).mp hm) h.2 hstep⟩
  obtain ⟨s', hs', -⟩ := Network.run_cons_eq_some.mp hread
  obtain ⟨r, hr, -⟩ := Option.map_eq_some_iff.mp hs'
  obtain ⟨p', hp', -⟩ := Option.map_eq_some_iff.mp hr
  obtain ⟨hth, hmode, hprot, hpage, -⟩ := read_eq_some hp'
  rw [← hpage]
  exact h.valid i (by simp [Peer.valid, hth, hmode, hprot])

end Run

/-- The node `j` writes `new`, the old owner `i` learns of it and fetches the page to read it. -/
def fetchRun (i j : Node) (old new : C) : List (Event Node C) :=
  writeFrom j i old new ++ [.deliver (.invalidation i j), .act i (.lock .read), .act i .grant,
    .act i (.sigsevHandler false), .deliver (.askPage j i), .deliver (.recvPage i j new),
    .act i .wake, .act i .protect]

theorem read_finds_last_content_fetched :
    ∃ t, Network.run (step fun n => [n + 1]) (initNet 0 fun _ => 0)
        (fetchRun (0 : Fin 2) 1 0 5 ++ [.act 0 (.read 5)]) = some t ∧
      5 = (fetchRun (0 : Fin 2) 1 0 5).foldl lastContent 0 := by
  have hrun : Network.run (step fun n => [n + 1]) (initNet 0 fun _ => 0)
      (fetchRun (0 : Fin 2) 1 0 5 ++ [.act 0 (.read 5)]) = some _ := rfl
  exact ⟨_, hrun, read_finds_last_content (by decide) hrun (by decide)⟩

/-- The node `j` writes `new`, and the old owner `i` reads before the invalidation reaches it. -/
def staleRun (i j : Node) (old new : C) : List (Event Node C) :=
  writeFrom j i old new ++ [.act i (.lock .read), .act i .grant, .act i (.sigsevHandler false),
    .act i .protect]

/-- `sync_page` returns at once at the node that still takes itself for the owner, and the read
finds the content of before the write. -/
theorem read_finds_stale_content :
    ∃ t, Network.run (step fun n => [n + 1]) (initNet 0 fun _ => 0)
        (staleRun (0 : Fin 2) 1 0 5 ++ [.act 0 (.read 0)]) = some t ∧
      Network.Meets (step fun n => [n + 1]) (fun s e => exclusive s e = true)
        (initNet 0 fun _ => 0) (staleRun (0 : Fin 2) 1 0 5) ∧
      0 ≠ (staleRun (0 : Fin 2) 1 0 5).foldl lastContent 0 :=
  ⟨_, rfl, by decide, by decide⟩

end DataTransfer
