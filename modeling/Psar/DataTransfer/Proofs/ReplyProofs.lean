import Psar.DataTransfer.Reply
import Psar.DataTransfer.Proofs.PagesProofs

/-!
# Proofs: replies that come late

A node that owns a page has no request for it under way. Every step either keeps the requests that
are under way, or sends one for a page that the node does not own.
-/

namespace PageTransfer

variable {Node Page C : Type} [DecidableEq Node] [DecidableEq Page]

/-! ## Steps of one node -/

/-- What one node knows of `ReplyInv`. -/
structure ReplyLocal (me : Node) (p : Peer Node Page C) : Prop where
  own : ∀ q, (p.entry q).owner = me → ∀ a ∈ p.asks, Ask.isFor me q a = false
  list : me ∉ p.nodeList
  loops : ∀ h ∈ p.hands, (∃ q, (q, none) ∈ h.todo) → h.newOwner ≠ me

/-- What a step that handles `ms` does to the requests; it makes the node the owner of the pages of
`mine` only. -/
structure ReplyMove (me : Node) (p : Peer Node Page C) (ms : List (Msg Node Page C))
    (mine : Page → Prop) (r : Peer Node Page C × List (Msg Node Page C)) : Prop where
  own : ∀ q, (r.1.entry q).owner = me → (p.entry q).owner = me ∨ mine q
  asks : ∀ a ∈ r.1.asks, ∀ n q, Ask.isFor n q a = true →
    (∃ b ∈ p.asks, Ask.isFor n q b) ∨ ∃ m ∈ ms, Msg.isFor n q m
  sent : ∀ m ∈ r.2, ∀ n q, Msg.isFor n q m = true →
    (∃ b ∈ p.asks, Ask.isFor n q b) ∨ (n = me ∧ (r.1.entry q).owner ≠ me)
  msgs : ∀ m ∈ r.2, ReplyMsg m
  list : me ∉ r.1.nodeList
  loops : ∀ h ∈ r.1.hands, (∃ q, (q, none) ∈ h.todo) → h.newOwner ≠ me

variable {me : Node} {p : Peer Node Page C} {ms : List (Msg Node Page C)} {mine : Page → Prop}

/-- A step that keeps the requests and sends nothing. -/
theorem ReplyLocal.move (h : ReplyLocal me p) {p' : Peer Node Page C}
    (hown : ∀ q, (p'.entry q).owner = me → (p.entry q).owner = me ∨ mine q)
    (hasks : p'.asks = p.asks) (hhands : p'.hands = p.hands) (hlist : p'.nodeList = p.nodeList) :
    ReplyMove me p ms mine (p', []) where
  own := hown
  asks := by
    intro a ha n q hfor
    rw [hasks] at ha
    exact Or.inl ⟨a, ha, hfor⟩
  sent := fun m hm => absurd hm List.not_mem_nil
  msgs := fun m hm => absurd hm List.not_mem_nil
  list := by
    rw [hlist]
    exact h.list
  loops := by
    rw [hhands]
    exact h.loops

theorem replyMove_syncPage (h : ReplyLocal me p) {q : Page} {writing : Bool}
    {r : Peer Node Page C × List (Msg Node Page C)} (hr : syncPage me p q writing = some r) :
    ReplyMove me p ms mine r := by
  simp only [syncPage] at hr
  split at hr
  · split at hr
    · cases hr
      exact h.move (fun _ hq => Or.inl hq) rfl rfl rfl
    · rename_i hown
      cases hr
      have howner : ∀ q', (Function.update p.entry q
          { p.entry q with predicate := false } q').owner = (p.entry q').owner :=
        forall_update (Q := fun q' e => e.owner = (p.entry q').owner) (fun _ => rfl) rfl
      refine ⟨?_, fun a ha n q' hfor => Or.inl ⟨a, ha, hfor⟩, ?_, ?_, h.list, h.loops⟩
      · intro q' hq'
        rw [show (p.entry q').owner = me from (howner q').symm.trans hq']
        exact Or.inl rfl
      · intro m hm n q' hfor
        rw [List.mem_singleton.mp hm] at hfor
        obtain ⟨rfl, rfl⟩ : q = q' ∧ me = n := by simpa [Msg.isFor] using hfor
        refine Or.inr ⟨rfl, ?_⟩
        show (Function.update p.entry q _ q).owner ≠ me
        rw [howner]
        exact fun ho => hown (Or.inl ho)
      · intro m hm
        rw [List.mem_singleton.mp hm]
        trivial
  · cases hr

theorem replyMove_publish (h : ReplyLocal me p) {q : Page}
    {r : Peer Node Page C × List (Msg Node Page C)} (hr : publish me p q = some r) :
    ReplyMove me p ms (fun q' => q' = q) r := by
  unfold publish at hr
  split at hr
  · cases hr
    refine ⟨?_, fun a ha n q' hfor => Or.inl ⟨a, ha, hfor⟩, ?_, ?_, h.list, h.loops⟩
    · exact forall_update (Q := fun q' e => e.owner = me → (p.entry q').owner = me ∨ q' = q)
        (fun _ hq => Or.inl hq) (fun _ => Or.inr rfl)
    · intro m hm n q' hfor
      obtain ⟨d, -, rfl⟩ := List.mem_map.mp hm
      cases hfor
    · intro m hm
      obtain ⟨d, hd, rfl⟩ := List.mem_map.mp hm
      show me ≠ d
      rintro rfl
      exact h.list hd
  · cases hr

theorem replyMove_askPass (h : ReplyLocal me p) {a : Ask Node Page} {p' : Peer Node Page C}
    (hp' : askPass p a = some p') : ReplyMove me p ms mine (p', []) := by
  unfold askPass at hp'
  split at hp'
  · rename_i hcond
    cases hp'
    refine ⟨fun _ hq => Or.inl hq, ?_, fun m hm => absurd hm List.not_mem_nil,
      fun m hm => absurd hm List.not_mem_nil, h.list, h.loops⟩
    intro b hb n q hfor
    rcases List.mem_cons.mp hb with rfl | hb
    · exact Or.inl ⟨a, hcond.1, hfor⟩
    · exact Or.inl ⟨b, List.mem_of_mem_erase hb, hfor⟩
  · cases hp'

theorem replyMove_askAnswer (h : ReplyLocal me p) {a : Ask Node Page}
    {r : Peer Node Page C × List (Msg Node Page C)} (hr : askAnswer me p a = some r) :
    ReplyMove me p ms mine r := by
  simp only [askAnswer] at hr
  split at hr
  · rename_i hcond
    have hasks : ∀ b ∈ p.asks.erase a, ∀ n q, Ask.isFor n q b = true →
        (∃ b ∈ p.asks, Ask.isFor n q b) ∨ ∃ m ∈ ms, Msg.isFor n q m :=
      fun b hb n q hfor => Or.inl ⟨b, List.mem_of_mem_erase hb, hfor⟩
    split at hr
    · rename_i hown
      cases hr
      refine ⟨?_, hasks, ?_, ?_, h.list, h.loops⟩
      · exact forall_update (Q := fun q' e => e.owner = me → (p.entry q').owner = me ∨ mine q')
          (fun _ hq => Or.inl hq) (fun hq => Or.inl hq)
      · intro m hm n q hfor
        rw [List.mem_singleton.mp hm] at hfor
        exact Or.inl ⟨a, hcond.1, hfor⟩
      · intro m hm
        rw [List.mem_singleton.mp hm]
        -- the request is not one of the owner
        show me ≠ a.requester
        intro hme
        have hfor := h.own a.page hown a hcond.1
        simp [Ask.isFor, hme] at hfor
    · cases hr
      refine ⟨fun _ hq => Or.inl hq, hasks, ?_, ?_, h.list, h.loops⟩
      · intro m hm n q hfor
        rw [List.mem_singleton.mp hm] at hfor
        exact Or.inl ⟨a, hcond.1, hfor⟩
      · intro m hm
        rw [List.mem_singleton.mp hm]
        trivial
  · cases hr

/-- The pages of which the next turn of a handler of a leave makes the node the owner. -/
def takesOver (me : Node) (p : Peer Node Page C) (h : Hand Node Page C) (q : Page) : Prop :=
  ∃ page todo, h.todo = (q, page) :: todo ∧ h.newOwner = me ∧ (p.entry q).owner = h.leaver

theorem replyMove_handPage [DecidableEq C] (h : ReplyLocal me p) {x : Hand Node Page C}
    {r : Peer Node Page C × List (Msg Node Page C)} (hr : handPage me p x = some r) :
    ReplyMove me p ms (takesOver me p x) r := by
  unfold handPage at hr
  split at hr
  · cases hr
  · rename_i q page todo htodo
    simp only at hr
    split at hr
    · rename_i hcond
      have hloops : ∀ y ∈ ({ x with todo := todo } : Hand Node Page C) :: p.hands.erase x,
          (∃ q, (q, none) ∈ y.todo) → y.newOwner ≠ me := by
        intro y hy hnone
        rcases List.mem_cons.mp hy with rfl | hy
        · obtain ⟨q', hq'⟩ := hnone
          refine h.loops x hcond.1 ⟨q', ?_⟩
          rw [htodo]
          exact List.mem_cons_of_mem _ hq'
        · exact h.loops y (List.mem_of_mem_erase hy) hnone
      have hasks : ∀ a ∈ p.asks, ∀ n q, Ask.isFor n q a = true →
          (∃ b ∈ p.asks, Ask.isFor n q b) ∨ ∃ m ∈ ms, Msg.isFor n q m :=
        fun a ha n q hfor => Or.inl ⟨a, ha, hfor⟩
      split at hr
      · rename_i hown
        have htakes : ∀ e : Entry Node C, e.owner = x.newOwner → ∀ q',
            (Function.update p.entry q e q').owner = me →
              (p.entry q').owner = me ∨ takesOver me p x q' := by
          intro e he
          refine forall_update (Q := fun q' e => e.owner = me → _ ∨ takesOver me p x q')
            (fun _ hq => Or.inl hq) ?_
          intro hme
          exact Or.inr ⟨page, todo, htodo, he.symm.trans hme, hown⟩
        cases page with
        | some page =>
          cases hr
          exact ⟨htakes _ (updatePage_owner _ _ _), hasks, fun m hm => absurd hm List.not_mem_nil,
            fun m hm => absurd hm List.not_mem_nil, h.list, hloops⟩
        | none =>
          cases hr
          have hne : x.newOwner ≠ me := by
            refine h.loops x hcond.1 ⟨q, ?_⟩
            rw [htodo]
            exact List.mem_cons_self
          refine ⟨htakes _ rfl, hasks, ?_, ?_, h.list, hloops⟩
          · intro m hm n q' hfor
            split at hm
            · cases hm
            · rw [List.mem_singleton.mp hm] at hfor
              obtain ⟨rfl, rfl⟩ : q = q' ∧ me = n := by simpa [Msg.isFor] using hfor
              refine Or.inr ⟨rfl, ?_⟩
              show (Function.update p.entry q _ q).owner ≠ me
              rw [Function.update_self]
              exact hne
          · intro m hm
            split at hm
            · cases hm
            · rw [List.mem_singleton.mp hm]
              trivial
      · cases hr
        exact ⟨fun _ hq => Or.inl hq, hasks, fun m hm => absurd hm List.not_mem_nil,
          fun m hm => absurd hm List.not_mem_nil, h.list, hloops⟩
    · cases hr

theorem replyMove_handAck [DecidableEq C] (h : ReplyLocal me p) {x : Hand Node Page C}
    {r : Peer Node Page C × List (Msg Node Page C)} (hr : handAck me p x = some r) :
    ReplyMove me p ms mine r := by
  unfold handAck at hr
  split at hr
  · cases hr
    refine ⟨fun _ hq => Or.inl hq, fun a ha n q hfor => Or.inl ⟨a, ha, hfor⟩, ?_, ?_, ?_, ?_⟩
    · intro m hm n q hfor
      rw [List.mem_singleton.mp hm] at hfor
      cases hfor
    · intro m hm
      rw [List.mem_singleton.mp hm]
      trivial
    · exact fun hmem => h.list (List.mem_of_mem_erase hmem)
    · exact fun y hy => h.loops y (List.mem_of_mem_erase hy)
  · cases hr

/-- The loop over `node_list` sends `DT_LEAVE` to nodes other than the new owner. -/
theorem replyMove_dtLeaveLoop (h : ReplyLocal me p) {p' : Peer Node Page C}
    (hentry : p'.entry = p.entry) (hasks : p'.asks = p.asks) (hhands : p'.hands = p.hands)
    (hlist : p'.nodeList = p.nodeList) (newOwner : Node) (owned : List Page) (l : List Node) :
    ReplyMove me p ms mine (dtLeaveLoop me p' newOwner owned l) := by
  have hown : ∀ q, (p'.entry q).owner = me → (p.entry q).owner = me ∨ mine q := by
    rw [hentry]
    exact fun _ hq => Or.inl hq
  induction l with
  | nil => exact h.move hown hasks hhands hlist
  | cons n rest ih =>
    unfold dtLeaveLoop
    split
    · exact ih
    · rename_i hne
      have hmove : ReplyMove me p ms mine (p', []) := h.move hown hasks hhands hlist
      refine ⟨hmove.own, hmove.asks, ?_, ?_, hmove.list, hmove.loops⟩
      · intro m hm n' q hfor
        rw [List.mem_singleton.mp hm] at hfor
        cases hfor
      · intro m hm
        rw [List.mem_singleton.mp hm]
        exact Ne.symm hne

theorem replyMove_leave {pages : List Page} (h : ReplyLocal me p) {l : LeaveStep Node}
    {r : Peer Node Page C × List (Msg Node Page C)}
    (hr : leaveDataTransfer pages me p l = some r) : ReplyMove me p ms mine r := by
  have hsame : ∀ q, (p.entry q).owner = me → (p.entry q).owner = me ∨ mine q :=
    fun _ hq => Or.inl hq
  cases l with
  | call o =>
    simp only [leaveDataTransfer] at hr
    split at hr
    · cases hr
      exact h.move hsame rfl rfl rfl
    · cases hr
  | removeAsk =>
    simp only [leaveDataTransfer] at hr
    split at hr
    · cases hr
      exact h.move hsame rfl rfl rfl
    · cases hr
  | lockPage =>
    simp only [leaveDataTransfer] at hr
    split at hr
    · cases hr
      exact h.move hsame rfl rfl rfl
    · cases hr
  | sendPages =>
    simp only [leaveDataTransfer] at hr
    split at hr
    · rename_i o owned _
      cases hr
      refine ⟨?_, fun a ha n q hfor => Or.inl ⟨a, ha, hfor⟩, ?_, ?_, h.list, h.loops⟩
      · intro q hq
        refine hsame q ?_
        rw [← hq]
        show _ = (if q ∈ owned then (p.entry q).memoryLockReset else p.entry q).owner
        split <;> rfl
      · intro m hm n q hfor
        rw [List.mem_singleton.mp hm] at hfor
        cases hfor
      · intro m hm
        rw [List.mem_singleton.mp hm]
        trivial
    · cases hr
  | resume =>
    simp only [leaveDataTransfer] at hr
    split at hr
    · split at hr
      · cases hr
        apply replyMove_dtLeaveLoop h <;> rfl
      · cases hr
    · split at hr
      · cases hr
        apply replyMove_dtLeaveLoop h <;> rfl
      · cases hr
    · cases hr

theorem replyMove_act [DecidableEq C] {pages : List Page} (h : ReplyLocal me p)
    {a : Action Node Page C} (hpublish : ∀ q, a = .publish q → mine q)
    (hhand : ∀ x, a = .handPage x → ∀ q, takesOver me p x q → mine q)
    {r : Peer Node Page C × List (Msg Node Page C)} (hr : act pages me p a = some r) :
    ReplyMove me p ms mine r := by
  by_cases hlocal : a.isLocal = true
  · obtain ⟨hsent, hsame, -⟩ := act_local hlocal hr
    obtain ⟨p', out⟩ := r
    cases hsent
    refine h.move ?_ hsame.asks hsame.hands hsame.nodeList
    intro q hq
    rw [hsame.owner] at hq
    exact Or.inl hq
  cases a with
  | syncPage q writing => exact replyMove_syncPage h hr
  | publish q =>
    have hmove : ReplyMove me p ms (fun q' => q' = q) r := replyMove_publish h hr
    refine { hmove with own := ?_ }
    intro q' hq'
    refine (hmove.own q' hq').imp_right ?_
    rintro rfl
    exact hpublish q' rfl
  | askPass a =>
    obtain ⟨p', hp', rfl⟩ := Option.map_eq_some_iff.mp hr
    exact replyMove_askPass h hp'
  | askAnswer a => exact replyMove_askAnswer h hr
  | handPage x =>
    have hmove : ReplyMove me p ms (takesOver me p x) r := replyMove_handPage h hr
    exact { hmove with own := fun q' hq' => (hmove.own q' hq').imp_right (hhand x rfl q') }
  | handAck x => exact replyMove_handAck h hr
  | leave l => exact replyMove_leave h hr
  | _ => exact absurd rfl hlocal

theorem replyMove_handle (h : ReplyLocal me p) {m : Msg Node Page C} (hm : ReplyMsg m)
    (hme : m.dest = me) {r : Peer Node Page C × List (Msg Node Page C)}
    (hr : handle me p m = some r) : ReplyMove me p [m] mine r := by
  cases m with
  | invalidation d sender q =>
    simp only [handle] at hr
    split at hr
    · cases hr
      refine h.move ?_ rfl rfl rfl
      refine forall_update (Q := fun q' e => e.owner = me → (p.entry q').owner = me ∨ mine q')
        (fun _ hq => Or.inl hq) ?_
      intro hsender
      exact absurd (hsender.trans hme.symm) hm
    · cases hr
  | askPage d q requester =>
    simp only [handle] at hr
    split at hr
    · cases hr
      refine ⟨fun _ hq => Or.inl hq, ?_, fun m hm => absurd hm List.not_mem_nil,
        fun m hm => absurd hm List.not_mem_nil, h.list, h.loops⟩
      intro a ha n q' hfor
      rcases List.mem_cons.mp ha with rfl | ha
      · exact Or.inr ⟨_, List.mem_cons_self, hfor⟩
      · exact Or.inl ⟨a, ha, hfor⟩
    · cases hr
      exact h.move (fun _ hq => Or.inl hq) rfl rfl rfl
  | recvPage d q owner page =>
    simp only [handle] at hr
    split at hr
    · split at hr
      · cases hr
        refine h.move ?_ rfl rfl rfl
        refine forall_update (Q := fun q' e => e.owner = me → (p.entry q').owner = me ∨ mine q')
          (fun _ hq => Or.inl hq) ?_
        rw [updatePage_owner]
        intro howner
        exact absurd (howner.trans hme.symm) hm
      · cases hr
    · cases hr
      exact h.move (fun _ hq => Or.inl hq) rfl rfl rfl
  | recvPageLeave d sender newOwner given =>
    cases hr
    refine ⟨fun _ hq => Or.inl hq, fun a ha n q hfor => Or.inl ⟨a, ha, hfor⟩,
      fun m hm => absurd hm List.not_mem_nil, fun m hm => absurd hm List.not_mem_nil, h.list, ?_⟩
    intro x hx hnone
    rcases List.mem_cons.mp hx with rfl | hx
    · -- every page comes with its content
      obtain ⟨q, hq⟩ := hnone
      simp at hq
    · exact h.loops x hx hnone
  | dtLeave d sender newOwner given =>
    cases hr
    refine ⟨fun _ hq => Or.inl hq, fun a ha n q hfor => Or.inl ⟨a, ha, hfor⟩,
      fun m hm => absurd hm List.not_mem_nil, fun m hm => absurd hm List.not_mem_nil, h.list, ?_⟩
    intro x hx hnone
    rcases List.mem_cons.mp hx with rfl | hx
    · show newOwner ≠ me
      rw [← hme]
      exact hm
    · exact h.loops x hx hnone
  | ackRecvPage d sender =>
    cases hr
    exact h.move (fun _ hq => Or.inl hq) rfl rfl rfl

/-! ## Steps of the network -/

section Steps

variable {s s' : Net Node Page C}

theorem ReplyInv.local_ (h : ReplyInv s) (n : Node) : ReplyLocal n (s.node n) where
  own := by
    intro q hq a ha
    cases hfor : Ask.isFor n q a with
    | false => rfl
    | true => exact absurd (Or.inr ⟨n, a, ha, hfor⟩) (h.own n q hq)
  list := h.lists n
  loops := h.loops n

/-- A request that is under way after a step was so before, or was sent for a page that the node
does not own. -/
theorem underWay_fire {i : Node} {ms rest : List (Msg Node Page C)}
    (hp : s.msgs.Perm (ms ++ rest)) {mine : Page → Prop}
    {r : Peer Node Page C × List (Msg Node Page C)} (hr : ReplyMove i (s.node i) ms mine r)
    {n : Node} {q : Page} (h : UnderWay (s.fire i rest r) n q) :
    UnderWay s n q ∨ (n = i ∧ (r.1.entry q).owner ≠ i) := by
  rcases h with ⟨m, hm, hfor⟩ | ⟨j, a, ha, hfor⟩
  · rcases List.mem_append.mp hm with hm | hm
    · exact Or.inl (Or.inl ⟨m, hp.symm.subset (List.mem_append_right _ hm), hfor⟩)
    · rcases hr.sent m hm n q hfor with ⟨b, hb, hbfor⟩ | hnew
      · exact Or.inl (Or.inr ⟨i, b, hb, hbfor⟩)
      · exact Or.inr hnew
  · left
    by_cases hj : j = i
    · subst hj
      rw [Network.fire_node_self] at ha
      rcases hr.asks a ha n q hfor with ⟨b, hb, hbfor⟩ | ⟨m, hm, hmfor⟩
      · exact Or.inr ⟨j, b, hb, hbfor⟩
      · exact Or.inl ⟨m, hp.symm.subset (List.mem_append_left _ hm), hmfor⟩
    · rw [Network.fire_node_ne _ _ _ hj] at ha
      exact Or.inr ⟨j, a, ha, hfor⟩

theorem replyInv_fire (h : ReplyInv s) {i : Node} {ms rest : List (Msg Node Page C)}
    (hp : s.msgs.Perm (ms ++ rest)) {mine : Page → Prop}
    {r : Peer Node Page C × List (Msg Node Page C)} (hr : ReplyMove i (s.node i) ms mine r)
    (hmine : ∀ q, mine q → ¬ UnderWay s i q) : ReplyInv (s.fire i rest r) where
  own := by
    intro n q hq hafter
    rcases underWay_fire hp hr hafter with hunder | ⟨rfl, hne⟩
    · by_cases hn : n = i
      · subst hn
        rw [Network.fire_node_self] at hq
        rcases hr.own q hq with hq | hq
        · exact h.own n q hq hunder
        · exact hmine q hq hunder
      · rw [Network.fire_node_ne _ _ _ hn] at hq
        exact h.own n q hq hunder
    · rw [Network.fire_node_self] at hq
      exact hne hq
  msgs := Network.forall_msgs_fire h.msgs hp hr.msgs
  lists := Network.forall_node_fire (L := fun n (p : Peer Node Page C) => n ∉ p.nodeList) h.lists
    hr.list
  loops := Network.forall_node_fire
    (L := fun n (p : Peer Node Page C) =>
      ∀ x ∈ p.hands, (∃ q, (q, none) ∈ x.todo) → x.newOwner ≠ n) h.loops hr.loops

variable [DecidableEq C] {pages : List Page}

/-- Under the invariant, no reply for a page of its own reaches a node. -/
theorem keepsOwn_of_replyInv (h : ReplyInv s) (e : Event Node Page C) :
    keepsOwn pages s e = true := by
  cases e with
  | act i a => rfl
  | deliver m =>
    cases m with
    | recvPage n q owner page =>
      simp only [keepsOwn, decide_eq_true_eq]
      intro hown
      by_cases hm : Msg.recvPage n q owner page ∈ s.msgs
      · exact absurd (Or.inl ⟨_, hm, by simp [Msg.isFor]⟩) (h.own n q hown)
      · simp [step, Network.step, hm]
    | _ => rfl

variable [Fintype Node]

theorem replyInv_step {e : Event Node Page C} (h : ReplyInv s) (hok : ownSettled s e = true)
    (hstep : step pages s e = some s') : ReplyInv s' := by
  rcases Network.step_cases hstep with ⟨i, a, r, rfl, hr, rfl⟩ | ⟨m, r, rfl, hm, hr, rfl⟩
  · have hmove : ReplyMove i (s.node i) [] (fun q => ¬ UnderWay s i q) r := by
      refine replyMove_act (h.local_ i) ?_ ?_ hr
      · rintro q rfl
        simpa [ownSettled] using hok
      · rintro x rfl q ⟨page, todo, htodo, hnew, hown⟩
        simp only [ownSettled, htodo, List.head?_cons, Option.all_some, decide_eq_true_eq] at hok
        exact hok hnew hown
    exact replyInv_fire h (Network.perm_act s.msgs) hmove fun _ hq => hq
  · have hmove : ReplyMove m.dest (s.node m.dest) [m] (fun _ => False) r :=
      replyMove_handle (h.local_ m.dest) (h.msgs m hm) rfl hr
    exact replyInv_fire h (Network.perm_deliver hm) hmove fun _ hq => hq.elim

end Steps

/-! ## Runs -/

theorem replyInv_idle {s : Net Node Page C} (h : Idle s) : ReplyInv s where
  own := by
    rintro n q - (⟨m, hm, -⟩ | ⟨i, a, ha, -⟩)
    · rw [h.msgs] at hm
      cases hm
    · rw [h.asks] at ha
      cases ha
  msgs := by
    rw [h.msgs]
    simp
  lists := h.lists
  loops := by
    intro n x hx
    rw [h.hands] at hx
    cases hx

/-- A reply destroys no newer version: in every run in which no node makes itself the owner of a
page while a request of its own for that page, or a reply to it, is under way, every `RECV_PAGE`
that a node handles for a page of its own leaves the content and the owner as they are. -/
theorem reply_keeps_newer [DecidableEq C] [Fintype Node] {pages : List Page} {s : Net Node Page C}
    (h : Idle s) {es : List (Event Node Page C)}
    (hok : Network.Meets (step pages) (fun s e => ownSettled s e = true) s es) :
    Network.Meets (step pages) (fun s e => keepsOwn pages s e = true) s es :=
  hok.of_invariant (fun _ _ _ hinv => replyInv_step hinv)
    (fun _ e hinv _ => keepsOwn_of_replyInv hinv e) (replyInv_idle h)

/-! ## Two threads in a fault on the same page -/

/-- The nodes `0` and `1` share one page, which `0` owns. -/
def pairNet : Net (Fin 2) Unit ℕ := initNet 0 [0, 1] fun _ _ => 7

theorem pairNet_idle : Idle pairNet := by
  constructor <;> first | rfl | decide

/-- The node `0` answers the request of `1`. -/
def answerRun : List (Event (Fin 2) Unit ℕ) :=
  [.deliver (.askPage 0 () 1), .act 0 (.askPass ⟨(), 1, false⟩), .act 0 (.askAnswer ⟨(), 1, true⟩)]

/-- A thread of the node `1` is back from `sync_page` and writes. -/
def writeRun : List (Event (Fin 2) Unit ℕ) :=
  [.act 1 (.wake () true), .act 1 (.protect () true), .act 1 (.publish ()), .act 1 (.write () 5)]

/-- One thread of the node `1` faults on the page and writes. -/
def oneThreadRun : List (Event (Fin 2) Unit ℕ) :=
  [.act 1 (.lock () .write), .act 1 (.grant ()), .act 1 (.syncPage () true)] ++ answerRun ++
    [.deliver (.recvPage 1 () 0 7)] ++ writeRun

theorem reply_keeps_newer_oneThreadRun :
    (∃ t, Network.run (step [()]) pairNet oneThreadRun = some t) ∧
      Network.Meets (step [()]) (fun s e => keepsOwn [()] s e = true) pairNet oneThreadRun :=
  ⟨⟨_, rfl⟩, reply_keeps_newer pairNet_idle (by decide)⟩

/-- Two threads of the node `1` ask for the page; the second reply comes after the write of the
first one. -/
def twoThreadsRun : List (Event (Fin 2) Unit ℕ) :=
  [.act 1 (.lock () .write), .act 1 (.grant ()), .act 1 (.syncPage () true),
    .act 1 (.syncPage () true)] ++ answerRun ++ answerRun ++
    [.deliver (.recvPage 1 () 0 7)] ++ writeRun

/-- The write `5` of the node `1` and its ownership are lost. -/
theorem reply_destroys_newer :
    Network.Meets (step [()]) (fun s e => exclusive s e = true) pairNet
        (twoThreadsRun ++ [.deliver (.recvPage 1 () 0 7)]) ∧
      (∃ s t, Network.run (step [()]) pairNet twoThreadsRun = some s ∧
        ((s.node 1).entry ()).owner = 1 ∧ ((s.node 1).entry ()).content = 5 ∧
        step [()] s (.deliver (.recvPage 1 () 0 7)) = some t ∧
        ((t.node 1).entry ()).owner = 0 ∧ ((t.node 1).entry ()).content = 7) ∧
      ¬ Network.Meets (step [()]) (fun s e => keepsOwn [()] s e = true) pairNet
        (twoThreadsRun ++ [.deliver (.recvPage 1 () 0 7)]) := by
  refine ⟨by decide, ⟨_, _, rfl, rfl, rfl, rfl, rfl, rfl⟩, by decide⟩

end PageTransfer
