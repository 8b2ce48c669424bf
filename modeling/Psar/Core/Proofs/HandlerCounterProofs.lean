import Psar.Core.HandlerCounter
import Psar.Library.Proofs.NetworkProofs

/-!
# Proofs: the handlers of a node that leaves

`handler_counter` counts the handlers that have begun. A message whose handler has not begun is
covered by the acknowledgement that its sender still owes, as long as the sender sends nothing after
its acknowledgement and the acknowledgement does not overtake the handlers.
-/

namespace HandlerCounter

open PageLock (CoreInfo)

variable {Node Page : Type} {nodeList : List Node} {s s' : State Node Page}

/-! ## Debts -/

/-- Who owes an acknowledgement only depends on the stage of the leave, the messages and the nodes
that have not handled `DELEGATE`. -/
theorem Owes.mono {n : Node} (h : Owes nodeList s n)
    (hleave : s'.leave.announced = s.leave.announced)
    (hmem : n ∈ s.delegates ∨ .delegateAck n ∈ s.msgs → n ∈ s'.delegates ∨ .delegateAck n ∈ s'.msgs) :
    Owes nodeList s' n := by
  unfold Owes at h ⊢
  rw [hleave]
  split
  · rename_i ha
    rw [if_pos ha] at h
    exact hmem h
  · rename_i ha
    rwa [if_neg ha] at h

/-- When all acknowledgements have been handled nobody owes one. -/
theorem Inv.not_owes (h : Inv nodeList s) (hacked : s.leave.acked = true) (n : Node) :
    ¬ Owes nodeList s n := by
  have hacks := h.acks
  rw [h.acked hacked] at hacks
  have hannounced : s.leave.announced = true := by
    cases hl : s.leave <;> simp_all [Leave.acked, Leave.announced]
  unfold Owes
  rw [if_pos hannounced]
  rintro (hn | hn)
  · have hpos := List.length_pos_of_mem hn
    omega
  · have hpos : 0 < s.msgs.countP Msg.isAck := List.countP_pos_iff.mpr ⟨_, hn, rfl⟩
    omega

/-! ## Handlers -/

section Handlers

variable [DecidableEq Node] [DecidableEq Page]

/-- The number of counted handlers after `h` has gone on as `h'`. -/
theorem countP_replace {hs : List (Handler Node Page)} {h h' : Handler Node Page} (hh : h ∈ hs) :
    ((h' :: hs.erase h).countP Handler.covered : ℤ) =
      hs.countP Handler.covered - h.covered.toNat + h'.covered.toNat := by
  have hperm := (List.perm_cons_erase hh).countP_eq Handler.covered
  rw [List.countP_cons] at hperm ⊢
  cases hc : h.covered <;> cases hc' : h'.covered <;> simp_all

theorem countP_erase {hs : List (Handler Node Page)} {h : Handler Node Page} (hh : h ∈ hs) :
    ((hs.erase h).countP Handler.covered : ℤ) =
      hs.countP Handler.covered - h.covered.toNat := by
  have hperm := (List.perm_cons_erase hh).countP_eq Handler.covered
  rw [List.countP_cons] at hperm
  cases hc : h.covered <;> simp_all

end Handlers

/-! ## Steps -/

/-- A step of `leave_core` or of the application thread, which leaves the messages, the handlers and
the counters as they are. -/
theorem Inv.of_eq (h : Inv nodeList s) (hcounter : s'.handlerCounter = s.handlerCounter)
    (hacks : s'.delegateAckCounter = s.delegateAckCounter) (hhandlers : s'.handlers = s.handlers)
    (hmsgs : s'.msgs = s.msgs) (hdelegates : s'.delegates = s.delegates)
    (hfault : s'.fault = s.fault) (hleave : s'.leave.announced = s.leave.announced)
    (hacked : s'.leave.acked = true → s.leave.acked = true ∨ s.delegateAckCounter = 0)
    (hcleaned : s'.leave = .cleaned → s.handlers = [])
    (hcore : s'.core = none → s'.leave = .cleaned) : Inv nodeList s' := by
  have howes : ∀ n, Owes nodeList s n → Owes nodeList s' n := by
    intro n hn
    apply hn.mono hleave
    rw [hdelegates, hmsgs]
    exact id
  constructor
  · rw [hcounter, hhandlers]
    exact h.counter
  · rw [hacks, hdelegates, hmsgs]
    exact h.acks
  · rw [hmsgs]
    exact fun m hm => howes _ (h.msgs m hm)
  · rw [hhandlers]
    exact fun x hx hc => howes _ (h.handlers x hx hc)
  · rw [hacks, hleave]
    exact h.early
  · intro ha
    rw [hacks]
    exact (hacked ha).elim h.acked id
  · rw [hhandlers]
    exact hcleaned
  · exact hcore
  · rw [hfault]
    exact h.fault

variable [DecidableEq Node] [DecidableEq Page] {me : Node} {pages : List Page}

omit [DecidableEq Page] in
theorem inv_send (h : Inv nodeList s) {m : LockMsg Node Page}
    (hok : coverOk nodeList s (.send m) = true) :
    Inv nodeList { s with msgs := s.msgs ++ [.lock m] } := by
  have howes : ∀ n, Owes nodeList s n → Owes nodeList { s with msgs := s.msgs ++ [.lock m] } n := by
    intro n hn
    refine hn.mono ?_ ?_
    · rfl
    rintro (hn | hn)
    · exact Or.inl hn
    · exact Or.inr (List.mem_append_left _ hn)
  have hsender : Owes nodeList s m.sender := by
    unfold Owes
    simp only [coverOk] at hok
    split
    · rename_i ha
      rw [if_pos ha] at hok
      exact Or.inl (of_decide_eq_true hok)
    · rename_i ha
      rw [if_neg ha] at hok
      exact of_decide_eq_true hok
  refine ⟨h.counter, ?_, ?_, fun x hx hc => howes _ (h.handlers x hx hc), h.early, h.acked, h.cleaned,
    h.core, h.fault⟩
  · have hacks := h.acks
    simp only [List.countP_append, List.countP_cons, List.countP_nil, Msg.isAck]
    simpa using hacks
  · intro m' hm'
    rcases List.mem_append.mp hm' with hm' | hm'
    · exact howes _ (h.msgs m' hm')
    · cases List.mem_singleton.mp hm'
      exact howes _ hsender

omit [DecidableEq Page] in
theorem inv_ack (h : Inv nodeList s) {n : Node} (hn : n ∈ s.delegates) :
    Inv nodeList { s with
      delegates := s.delegates.erase n
      msgs := s.msgs ++ [.delegateAck n] } := by
  have howes : ∀ i, Owes nodeList s i → Owes nodeList { s with
      delegates := s.delegates.erase n
      msgs := s.msgs ++ [.delegateAck n] } i := by
    intro i hi
    refine hi.mono ?_ ?_
    · rfl
    rintro (hi | hi)
    · by_cases hin : i = n
      · subst hin
        exact Or.inr (List.mem_append_right _ (List.mem_singleton_self _))
      · exact Or.inl ((List.mem_erase_of_ne hin).mpr hi)
    · exact Or.inr (List.mem_append_left _ hi)
  refine ⟨h.counter, ?_, ?_, fun x hx hc => howes _ (h.handlers x hx hc), h.early, h.acked, h.cleaned,
    h.core, h.fault⟩
  · have hacks := h.acks
    have hlen := List.length_erase_of_mem hn
    have hpos := List.length_pos_of_mem hn
    show s.delegateAckCounter =
      (s.delegates.erase n).length + (s.msgs ++ [Msg.delegateAck n]).countP Msg.isAck
    rw [List.countP_append, List.countP_cons_of_pos rfl, List.countP_nil, hlen]
    omega
  · intro m hm
    rcases List.mem_append.mp hm with hm | hm
    · exact howes _ (h.msgs m hm)
    · cases List.mem_singleton.mp hm

/-- The acknowledgement of `n` is handled when nothing of `n` is left that is not counted. -/
theorem inv_handleDelegateAck (h : Inv nodeList s) {n : Node}
    (hok : coverOk nodeList s (.handleDelegateAck n) = true) (hn : .delegateAck n ∈ s.msgs) :
    Inv nodeList { s with
      msgs := s.msgs.erase (.delegateAck n)
      delegateAckCounter := s.delegateAckCounter - 1 } := by
  obtain ⟨hmsgs, hhandlers⟩ := of_decide_eq_true hok
  have hperm := (List.perm_cons_erase hn).countP_eq Msg.isAck
  rw [List.countP_cons_of_pos rfl] at hperm
  have hacks := h.acks
  have hpos : s.delegateAckCounter ≠ 0 := by omega
  have howes : ∀ i, i ≠ n → Owes nodeList s i → Owes nodeList { s with
      msgs := s.msgs.erase (.delegateAck n)
      delegateAckCounter := s.delegateAckCounter - 1 } i := by
    intro i hin hi
    refine hi.mono ?_ ?_
    · rfl
    refine Or.imp_right fun hi => ?_
    exact (List.mem_erase_of_ne (by simpa using hin)).mpr hi
  refine ⟨h.counter, ?_, ?_, ?_, ?_, ?_, h.cleaned, h.core, h.fault⟩
  · show s.delegateAckCounter - 1 =
      s.delegates.length + (s.msgs.erase (.delegateAck n)).countP Msg.isAck
    omega
  · intro m hm
    have hm' : .lock m ∈ s.msgs := List.mem_of_mem_erase hm
    have hne : m.sender ≠ n := by simpa [Msg.isLockOf] using hmsgs (.lock m) hm'
    exact howes _ hne (h.msgs m hm')
  · intro x hx hc
    refine howes _ ?_ (h.handlers x hx hc)
    intro hsender
    rw [hhandlers x hx hsender] at hc
    cases hc
  · exact fun ha => absurd (h.early ha) hpos
  · exact fun ha => absurd (h.acked ha) hpos

theorem inv_create (h : Inv nodeList s) {m : LockMsg Node Page} (hm : .lock m ∈ s.msgs) :
    Inv nodeList { s with
      msgs := s.msgs.erase (.lock m)
      handlers := ⟨m, .created⟩ :: s.handlers } := by
  have hperm := (List.perm_cons_erase hm).countP_eq Msg.isAck
  rw [List.countP_cons_of_neg (by simp [Msg.isAck])] at hperm
  have howes : ∀ i, Owes nodeList s i → Owes nodeList { s with
      msgs := s.msgs.erase (.lock m)
      handlers := ⟨m, .created⟩ :: s.handlers } i := by
    intro i hi
    refine hi.mono ?_ ?_
    · rfl
    exact Or.imp_right fun hi => (List.mem_erase_of_ne (by simp)).mpr hi
  refine ⟨?_, ?_, ?_, ?_, h.early, h.acked, ?_, h.core, h.fault⟩
  · have hcounter := h.counter
    simp only [List.countP_cons, Handler.covered]
    simpa using hcounter
  · show s.delegateAckCounter = _
    rw [h.acks, hperm]
  · intro m' hm'
    exact howes _ (h.msgs m' (List.mem_of_mem_erase hm'))
  · intro x hx hc
    rcases List.mem_cons.mp hx with rfl | hx
    · exact howes _ (h.msgs m hm)
    · exact howes _ (h.handlers x hx hc)
  · intro hcleaned
    have hacked : s.leave.acked = true := by
      show Leave.acked s.leave = true
      rw [hcleaned]
      rfl
    exact absurd (h.msgs m hm) (h.not_owes hacked _)

/-- A handler goes on, and counts itself if it is not counted any more. -/
theorem Inv.replace (h : Inv nodeList s) {x : Handler Node Page} (hx : x ∈ s.handlers)
    (x' : Handler Node Page) (hsender : x'.msg.sender = x.msg.sender)
    (hcovered : x.covered = true → x'.covered = true)
    (core : Option (Page → CoreInfo Node)) (hcore : core = none → s.leave = .cleaned) {k : ℤ}
    (hk : k = s.handlerCounter - x.covered.toNat + x'.covered.toNat) :
    Inv nodeList { s.replace x x' with core := core, handlerCounter := k } := by
  refine ⟨?_, h.acks, h.msgs, ?_, h.early, h.acked, ?_, hcore, h.fault⟩
  · show k = _
    rw [hk, h.counter]
    exact (countP_replace hx).symm
  · intro y hy hc
    rcases List.mem_cons.mp hy with rfl | hy
    · show Owes nodeList s y.msg.sender
      rw [hsender]
      apply h.handlers x hx
      cases hxc : x.covered with
      | false => rfl
      | true =>
        rw [hcovered hxc] at hc
        cases hc
    · exact h.handlers y (List.mem_of_mem_erase hy) hc
  · intro hcleaned
    have hnil := h.cleaned hcleaned
    rw [hnil] at hx
    cases hx

theorem inv_begin (h : Inv nodeList s) {x : Handler Node Page} (hx : x ∈ s.handlers)
    (hcreated : x.progress = .created) :
    Inv nodeList ((s.replace x ⟨x.msg, .pages (x.msg.pages pages)⟩).addCounter x 1) := by
  have hnot : x.covered = false := by simp [Handler.covered, hcreated]
  refine h.replace hx ⟨x.msg, .pages (x.msg.pages pages)⟩ rfl (by simp [hnot]) s.core h.core ?_
  show (if x.msg.counted then s.handlerCounter + 1 else s.handlerCounter) = _
  rw [hnot]
  simp only [Handler.covered]
  cases x.msg.counted <;> simp

theorem inv_page (h : Inv nodeList s) {x : Handler Node Page} (hx : x ∈ s.handlers)
    (hstep : handlerPage me s x = some s') : Inv nodeList s' := by
  unfold handlerPage at hstep
  split at hstep
  · rename_i q todo core hprogress hcore
    split at hstep
    · cases hstep
    · cases hstep
      have hsame : Handler.covered ⟨x.msg, .pages todo⟩ = x.covered := by
        simp [Handler.covered, hprogress]
      refine h.replace hx ⟨x.msg, .pages todo⟩ rfl (fun hc => hsame.trans hc) (some _) (by simp) ?_
      rw [hsame]
      show s.handlerCounter = _
      omega
  · -- `core_info` is only freed when there are no handlers
    rename_i hcore
    rw [h.cleaned (h.core hcore)] at hx
    cases hx
  · cases hstep

theorem inv_finish (h : Inv nodeList s) {x : Handler Node Page} (hx : x ∈ s.handlers)
    (hprogress : x.progress = .pages []) :
    Inv nodeList ({ s with handlers := s.handlers.erase x }.addCounter x (-1)) := by
  refine ⟨?_, h.acks, h.msgs, ?_, h.early, h.acked, ?_, h.core, h.fault⟩
  · have hcounted : x.covered = x.msg.counted := by simp [Handler.covered, hprogress]
    have hcount := countP_erase hx
    rw [hcounted, ← h.counter] at hcount
    show (if x.msg.counted then s.handlerCounter + -1 else s.handlerCounter) =
      ((s.handlers.erase x).countP Handler.covered : ℤ)
    rw [hcount]
    cases x.msg.counted <;> simp [Int.sub_eq_add_neg]
  · intro y hy hc
    exact h.handlers y (List.mem_of_mem_erase hy) hc
  · intro hcleaned
    rw [h.cleaned hcleaned] at hx
    cases hx

omit [DecidableEq Node] [DecidableEq Page] in
theorem inv_announce (h : Inv nodeList s) {d : Node} (hleave : s.leave = .lockPages d []) :
    Inv nodeList { s with
      leave := .waitAcks d
      delegates := nodeList
      delegateAckCounter := s.delegateAckCounter + nodeList.length } := by
  have hacks := h.acks
  have hzero : s.delegateAckCounter = 0 := h.early (by rw [hleave]; rfl)
  have howes : ∀ i, Owes nodeList s i → Owes nodeList { s with
      leave := .waitAcks d
      delegates := nodeList
      delegateAckCounter := s.delegateAckCounter + nodeList.length } i := by
    intro i hi
    unfold Owes at hi ⊢
    rw [hleave] at hi
    exact Or.inl hi
  refine ⟨h.counter, ?_, fun m hm => howes _ (h.msgs m hm),
    fun x hx hc => howes _ (h.handlers x hx hc), by simp [Leave.announced], by simp [Leave.acked],
    by simp, ?_, h.fault⟩
  · show s.delegateAckCounter + nodeList.length = nodeList.length + s.msgs.countP Msg.isAck
    omega
  · intro hcore
    have hcleaned := h.core hcore
    rw [hleave] at hcleaned
    cases hcleaned

omit [DecidableEq Node] [DecidableEq Page] in
/-- When all acknowledgements and all counted handlers are done, there is no handler at all. -/
theorem Inv.handlers_nil (h : Inv nodeList s) (hacked : s.leave.acked = true)
    (hcounter : s.handlerCounter = 0) : s.handlers = [] := by
  rw [List.eq_nil_iff_forall_not_mem]
  intro x hx
  cases hc : x.covered with
  | false => exact h.not_owes hacked _ (h.handlers x hx hc)
  | true =>
    have hpos : 0 < s.handlers.countP Handler.covered := List.countP_pos_iff.mpr ⟨x, hx, hc⟩
    have hcount := h.counter
    omega

theorem inv_step (h : Inv nodeList s) {e : Event Node Page} (hok : coverOk nodeList s e = true)
    (hstep : step me nodeList pages s e = some s') : Inv nodeList s' := by
  cases e with
  | send m =>
    cases hstep
    exact inv_send h hok
  | ack n =>
    simp only [step] at hstep
    split at hstep
    · rename_i hn
      cases hstep
      exact inv_ack h hn
    · cases hstep
  | handleDelegateAck n =>
    simp only [step] at hstep
    split at hstep
    · rename_i hn
      cases hstep
      exact inv_handleDelegateAck h hok hn
    · cases hstep
  | create m =>
    simp only [step] at hstep
    split at hstep
    · rename_i hm
      cases hstep
      exact inv_create h hm
    · cases hstep
  | begin x =>
    simp only [step] at hstep
    split at hstep
    · rename_i hx
      cases hstep
      exact inv_begin h hx.1 hx.2
    · cases hstep
  | page x =>
    simp only [step] at hstep
    split at hstep
    · rename_i hx
      exact inv_page h hx hstep
    · cases hstep
  | finish x =>
    simp only [step] at hstep
    split at hstep
    · rename_i hx
      cases hstep
      exact inv_finish h hx.1 hx.2
    · cases hstep
  | app q c =>
    simp only [step] at hstep
    split at hstep
    · cases hstep
      exact h.of_eq rfl rfl rfl rfl rfl rfl rfl Or.inl h.cleaned (by simp)
    · cases hstep
  | leaveCore d =>
    simp only [step] at hstep
    split at hstep
    · rename_i hleave
      cases hstep
      refine h.of_eq rfl rfl rfl rfl rfl rfl (by rw [hleave]; rfl) (by simp [Leave.acked]) (by simp) ?_
      intro hcore
      have hcleaned := h.core hcore
      rw [hleave] at hcleaned
      cases hcleaned
    · cases hstep
  | lockPage =>
    simp only [step, lockPage] at hstep
    split at hstep
    · rename_i d q todo core hleave hcore
      cases hstep
      exact h.of_eq rfl rfl rfl rfl rfl rfl (by rw [hleave]; rfl) (by simp [Leave.acked]) (by simp)
        (by simp)
    · cases hstep
  | announce =>
    simp only [step] at hstep
    split at hstep
    · rename_i d hleave
      cases hstep
      exact inv_announce h hleave
    · cases hstep
  | acked =>
    simp only [step] at hstep
    split at hstep
    · rename_i d hleave
      split at hstep
      · rename_i hzero
        cases hstep
        refine h.of_eq rfl rfl rfl rfl rfl rfl (by rw [hleave]; rfl) (fun _ => Or.inr hzero)
          (by simp) ?_
        intro hcore
        have hcleaned := h.core hcore
        rw [hleave] at hcleaned
        cases hcleaned
      · cases hstep
    · cases hstep
  | unlockPage =>
    simp only [step, unlockPage] at hstep
    split at hstep
    · rename_i d q todo core hleave hcore
      have hacked : s.leave.acked = true := by
        rw [hleave]
        rfl
      split at hstep
      · cases hstep
        exact h.of_eq rfl rfl rfl rfl rfl rfl (by rw [hleave]; rfl) (fun _ => Or.inl hacked) (by simp)
          (by simp)
      · cases hstep
        exact h.of_eq rfl rfl rfl rfl rfl rfl (by rw [hleave]; rfl) (fun _ => Or.inl hacked) (by simp)
          (by simp [hcore])
    · cases hstep
  | cleanCore =>
    simp only [step] at hstep
    split at hstep
    · rename_i d hleave
      split at hstep
      · rename_i hzero
        have hacked : s.leave.acked = true := by
          rw [hleave]
          rfl
        cases hstep
        exact h.of_eq rfl rfl rfl rfl rfl rfl (by rw [hleave]; rfl) (fun _ => Or.inl hacked)
          (fun _ => h.handlers_nil hacked hzero) (fun _ => rfl)
      · cases hstep
    · cases hstep

/-! ## Runs -/

omit [DecidableEq Node] [DecidableEq Page] in
theorem inv_init (core : Page → CoreInfo Node) : Inv nodeList (initState core) := by
  refine ⟨rfl, rfl, ?_, ?_, fun _ => rfl, fun _ => rfl, fun _ => rfl, ?_, rfl⟩
  · intro m hm
    cases hm
  · intro x hx
    cases hx
  · intro hcore
    cases hcore

/-- No lock handler runs on a cleaned core: in every run in which only nodes that have not
acknowledged `DELEGATE` send messages, and an acknowledgement is handled when the handlers of all
messages of its sender have counted themselves or ended, there is no message and no handler left
once `clean_core` has been called, and no handler dereferences `core_info` after it. -/
theorem no_handler_after_clean {core : Page → CoreInfo Node} {es : List (Event Node Page)}
    (hrun : Network.run (step me nodeList pages) (initState core) es = some s)
    (hok : Network.Meets (step me nodeList pages) (fun s e => coverOk nodeList s e = true)
      (initState core) es) :
    (s.core = none → (∀ m, Msg.lock m ∉ s.msgs) ∧ s.handlers = []) ∧ s.fault = false := by
  have h : Inv nodeList s := Network.run_invariant (fun s e s' h hok hstep => inv_step h hok hstep)
    (inv_init core) hok hrun
  refine ⟨?_, h.fault⟩
  intro hcore
  have hcleaned := h.core hcore
  refine ⟨?_, h.cleaned hcleaned⟩
  intro m hm
  exact h.not_owes (by rw [hcleaned]; rfl) _ (h.msgs m hm)

/-- The handler of an `ASK_LOCK` of the node `n`. -/
def askHandler (n : Node) (page : Page) (progress : Progress Page) : Handler Node Page :=
  ⟨.askLock n n .write page, progress⟩

/-- The rest of a leave with one page and one other node, up to `clean_core`. -/
def leaveRun (n : Node) : List (Event Node Page) :=
  [.leaveCore n, .lockPage, .announce, .ack n, .handleDelegateAck n, .acked, .unlockPage, .cleanCore]

/-- An `ASK_LOCK` of `n` is handled, and then the node leaves. -/
def handledRun (n : Node) (page : Page) : List (Event Node Page) :=
  [.send (.askLock n n .write page), .create (.askLock n n .write page),
    .begin (askHandler n page .created), .page (askHandler n page (.pages [page])),
    .finish (askHandler n page (.pages []))] ++ leaveRun n

theorem no_handler_after_clean_handledRun :
    ∃ s, Network.run (step 0 [1] [0])
        (initState fun _ : Fin 1 => PageLock.initCore 0) (handledRun (1 : Fin 2) 0) = some s ∧
      s.core = none ∧ s.handlers = [] ∧ s.fault = false := by
  have hrun : Network.run (step 0 [1] [0]) (initState fun _ : Fin 1 => PageLock.initCore 0)
    (handledRun (1 : Fin 2) 0) = some _ := rfl
  obtain ⟨hcore, hfault⟩ := no_handler_after_clean hrun (by decide)
  exact ⟨_, hrun, rfl, (hcore rfl).2, hfault⟩

/-- The thread of the handler is created before the node leaves, and begins after `clean_core`. -/
def lateRun (n : Node) (page : Page) : List (Event Node Page) :=
  [.send (.askLock n n .write page), .create (.askLock n n .write page)] ++ leaveRun n

/-- `clean_core` has been called, a handler has not finished, and it dereferences `core_info`. -/
theorem handler_after_clean :
    ∃ s s', Network.run (step 0 [1] [0])
        (initState fun _ : Fin 1 => PageLock.initCore 0) (lateRun (1 : Fin 2) 0) = some s ∧
      s.core = none ∧ s.handlers ≠ [] ∧
      Network.run (step 0 [1] [0]) s [.begin (askHandler 1 0 .created),
        .page (askHandler 1 0 (.pages [0]))] = some s' ∧ s'.fault = true :=
  ⟨_, _, rfl, rfl, by decide, rfl, rfl⟩

end HandlerCounter
