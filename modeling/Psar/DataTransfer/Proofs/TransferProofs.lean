import Psar.DataTransfer.Handover
import Psar.DataTransfer.Proofs.PagesProofs

/-!
# Proofs: the transfer while pages are handed over

A step keeps the requests and replies of the other nodes together: what a node waits for stays on
its way until the node has its page.
-/

namespace PageTransfer

variable {Node Page C : Type} [DecidableEq Node] [DecidableEq Page]

/-! ## Steps of the transfer -/

section Transfer

variable {l newOwner : Node} {ow : Page → Node} {c₀ : Page → C} {s : Net Node Page C}

/-- The step hands the page over at `i`. -/
def HandsOver (l newOwner : Node) (ow : Page → Node) (s : Net Node Page C) (i : Node) (q : Page) :
    Prop :=
  ow q = l ∧ i ≠ l ∧ (i = newOwner ∨ Handed newOwner s newOwner q) ∧
    (s.node l).askOn = false ∧ ¬ Late s l i q

/-- What a step of `i` that handles `ms` does to the transfer. -/
structure TransferMove (l newOwner : Node) (ow : Page → Node) (c₀ : Page → C)
    (s : Net Node Page C) (i : Node) (ms : List (Msg Node Page C))
    (r : Peer Node Page C × List (Msg Node Page C)) : Prop where
  owner : ∀ q, (r.1.entry q).owner = ((s.node i).entry q).owner ∨
    ((r.1.entry q).owner = newOwner ∧ HandsOver l newOwner ow s i q)
  asks : ∀ a ∈ r.1.asks, ∀ n q, Ask.isFor n q a = true →
    (∃ b ∈ (s.node i).asks, Ask.isFor n q b) ∨
      (.askPage i q n ∈ ms ∧ (s.node i).askOn = true)
  sent : ∀ d q n, .askPage d q n ∈ r.2 → n = i ∧ i ≠ l ∧ d = (r.1.entry q).owner
  replies : ∀ n q o page, .recvPage n q o page ∈ r.2 → (∃ b ∈ (s.node i).asks, Ask.isFor n q b) ∧
    o = i ∧ page = ((s.node i).entry q).content
  askOn : i = l → r.1.askOn = true → (s.node l).askOn = true
  content : ∀ q, ow q = l → (i = l → (r.1.entry q).content = ((s.node i).entry q).content) ∧
    (i = newOwner → (r.1.entry q).owner = newOwner → (r.1.entry q).content = c₀ q)
  pending : ∀ q, ow q = l → (r.1.entry q).owner = newOwner → (r.1.entry q).predicate = false →
    (Handed newOwner s i q ∧ ((s.node i).entry q).predicate = false) ∨ .askPage newOwner q i ∈ r.2
  keepAsks : ∀ n q, i = newOwner → Handed newOwner s newOwner q →
    ((∃ b ∈ (s.node i).asks, Ask.isFor n q b) ∨ .askPage i q n ∈ ms) →
    (∃ b ∈ r.1.asks, Ask.isFor n q b) ∨ ∃ o page, .recvPage n q o page ∈ r.2
  keepReplies : ∀ n q o page, .recvPage n q o page ∈ ms → n = i ∧ (r.1.entry q).predicate = true
  dest : ∀ m ∈ ms, m.dest = i
  valid : ∀ d sender q, .invalidation d sender q ∉ r.2
  others : i ≠ l → r.1.recvOn = true ∧ r.1.askOn = true ∧ r.1.leave = none

/-- The new owner is the first to have a page. -/
theorem TransferInv.first (h : TransferInv l newOwner ow c₀ s) (hne : newOwner ≠ l) {n : Node}
    {q : Page} (hq : ow q = l) (hn : Handed newOwner s n q) : Handed newOwner s newOwner q := by
  rcases h.owner n q with ho | ⟨-, -, -, hfirst⟩
  · exact absurd (hn.symm.trans (ho.trans hq)) hne
  · exact hfirst

section Fire

variable {i : Node} {ms rest : List (Msg Node Page C)}
  {r : Peer Node Page C × List (Msg Node Page C)}

theorem handed_fire (hr : TransferMove l newOwner ow c₀ s i ms r) {n : Node} {q : Page}
    (h : Handed newOwner s n q) : Handed newOwner (s.fire i rest r) n q := by
  unfold Handed at h ⊢
  by_cases hn : n = i
  · subst hn
    rw [Network.fire_node_self]
    rcases hr.owner q with ho | ⟨ho, -⟩
    · exact ho.trans h
    · exact ho
  · rw [Network.fire_node_ne _ _ _ hn]
    exact h

theorem handed_of_fire (hr : TransferMove l newOwner ow c₀ s i ms r) {n : Node} {q : Page}
    (h : Handed newOwner (s.fire i rest r) n q) :
    Handed newOwner s n q ∨ (n = i ∧ HandsOver l newOwner ow s i q) := by
  unfold Handed at h
  by_cases hn : n = i
  · subst hn
    rw [Network.fire_node_self] at h
    rcases hr.owner q with ho | ⟨-, hover⟩
    · exact Or.inl (ho.symm.trans h)
    · exact Or.inr ⟨rfl, hover⟩
  · rw [Network.fire_node_ne _ _ _ hn] at h
    exact Or.inl h

/-- A request after the step is an old one, or goes to the owner. -/
theorem askedAt_of_fire (hp : s.msgs.Perm (ms ++ rest))
    (hr : TransferMove l newOwner ow c₀ s i ms r) {d n : Node} {q : Page}
    (h : AskedAt (s.fire i rest r) d q n) :
    AskedAt s d q n ∨ (n = i ∧ i ≠ l ∧ d = (r.1.entry q).owner) := by
  rcases h with hm | ⟨a, ha, hfor⟩
  · rcases List.mem_append.mp hm with hm | hm
    · exact Or.inl (Or.inl (hp.symm.subset (List.mem_append_right _ hm)))
    · exact Or.inr (hr.sent d q n hm)
  · left
    by_cases hd : d = i
    · subst hd
      rw [Network.fire_node_self] at ha
      rcases hr.asks a ha n q hfor with hold | ⟨hm, -⟩
      · exact Or.inr hold
      · exact Or.inl (hp.symm.subset (List.mem_append_left _ hm))
    · rw [Network.fire_node_ne _ _ _ hd] at ha
      exact Or.inr ⟨a, ha, hfor⟩

/-- While the leaver takes no requests, a reply of its own is not new. -/
theorem late_of_fire (hp : s.msgs.Perm (ms ++ rest))
    (hr : TransferMove l newOwner ow c₀ s i ms r) (hoff : (s.node l).askOn = false) {n : Node}
    {q : Page} (h : Late (s.fire i rest r) l n q) : Late s l n q := by
  rcases h with ⟨a, ha, hfor⟩ | ⟨m, hm, hreply⟩
  · by_cases hl : l = i
    · subst hl
      rw [Network.fire_node_self] at ha
      rcases hr.asks a ha n q hfor with hold | ⟨-, hon⟩
      · exact Or.inl hold
      · rw [hoff] at hon
        cases hon
    · rw [Network.fire_node_ne _ _ _ hl] at ha
      exact Or.inl ⟨a, ha, hfor⟩
  · rcases List.mem_append.mp hm with hm | hm
    · exact Or.inr ⟨m, hp.symm.subset (List.mem_append_right _ hm), hreply⟩
    · cases m with
      | recvPage d page owner c =>
        obtain ⟨rfl, rfl, rfl⟩ : d = n ∧ page = q ∧ owner = l := by
          simpa [Msg.isReply] using hreply
        obtain ⟨hold, rfl, -⟩ := hr.replies d page owner c hm
        exact Or.inl hold
      | _ => cases hreply

/-- What a waiting node waits for stays, unless the node gets its page. -/
theorem waits_fire (hp : s.msgs.Perm (ms ++ rest)) (hr : TransferMove l newOwner ow c₀ s i ms r)
    {n : Node} {q : Page} (hfirst : Handed newOwner s newOwner q)
    (hwait : (((s.fire i rest r).node n).entry q).predicate = false)
    (h : AskedAt s newOwner q n ∨ Replied s n q) :
    AskedAt (s.fire i rest r) newOwner q n ∨ Replied (s.fire i rest r) n q := by
  -- a request at the new owner stays there or is answered
  have hown : i = newOwner →
      ((∃ b ∈ (s.node i).asks, Ask.isFor n q b) ∨ .askPage i q n ∈ ms) →
      AskedAt (s.fire i rest r) newOwner q n ∨ Replied (s.fire i rest r) n q := by
    intro hi hask
    rcases hr.keepAsks n q hi hfirst hask with hb | ⟨o, page, hm⟩
    · left
      right
      rw [← hi, Network.fire_node_self]
      exact hb
    · exact Or.inr ⟨o, page, List.mem_append_right _ hm⟩
  rcases h with (hm | ⟨a, ha, hfor⟩) | ⟨o, page, hm⟩
  · rcases List.mem_append.mp (hp.subset hm) with hm | hm
    · have hi : newOwner = i := hr.dest _ hm
      subst hi
      exact hown rfl (Or.inr hm)
    · exact Or.inl (Or.inl (List.mem_append_left _ hm))
  · by_cases hi : newOwner = i
    · subst hi
      exact hown rfl (Or.inl ⟨a, ha, hfor⟩)
    · left
      right
      rw [Network.fire_node_ne _ _ _ hi]
      exact ⟨a, ha, hfor⟩
  · rcases List.mem_append.mp (hp.subset hm) with hm | hm
    · obtain ⟨rfl, hwoken⟩ := hr.keepReplies n q o page hm
      rw [Network.fire_node_self, hwoken] at hwait
      cases hwait
    · exact Or.inr ⟨o, page, List.mem_append_left _ hm⟩

theorem transferInv_fire (h : TransferInv l newOwner ow c₀ s) (hne : newOwner ≠ l)
    (hp : s.msgs.Perm (ms ++ rest)) (hr : TransferMove l newOwner ow c₀ s i ms r) :
    TransferInv l newOwner ow c₀ (s.fire i rest r) := by
  have hmono : ∀ n q, Handed newOwner s n q → Handed newOwner (s.fire i rest r) n q :=
    fun n q => handed_fire hr
  have howner : ∀ n q, (((s.fire i rest r).node n).entry q).owner = ow q ∨
      (ow q = l ∧ n ≠ l ∧ Handed newOwner (s.fire i rest r) n q ∧
        Handed newOwner (s.fire i rest r) newOwner q) := by
    intro n q
    -- the page was handed over before, or is now
    have hold : ((s.node n).entry q).owner = ow q ∨ (ow q = l ∧ n ≠ l ∧
        Handed newOwner (s.fire i rest r) n q ∧
        Handed newOwner (s.fire i rest r) newOwner q) := by
      rcases h.owner n q with ho | ⟨h1, h2, h3, h4⟩
      · exact Or.inl ho
      · exact Or.inr ⟨h1, h2, hmono n q h3, hmono newOwner q h4⟩
    by_cases hn : n = i
    · subst hn
      rcases hr.owner q with ho | ⟨ho, hq, hnl, hfirst, -⟩
      · rw [Network.fire_node_self, ho]
        exact hold
      · have hnow : Handed newOwner (s.fire n rest r) n q := by
          unfold Handed
          rw [Network.fire_node_self]
          exact ho
        refine Or.inr ⟨hq, hnl, hnow, ?_⟩
        rcases hfirst with rfl | hfirst
        · exact hnow
        · exact hmono newOwner q hfirst
    · rw [Network.fire_node_ne _ _ _ hn]
      exact hold
  refine ⟨howner, ?_, ?_, ?_, ?_, ?_, ?_, ?_⟩
  · intro d q n hask
    rcases askedAt_of_fire hp hr hask with hask | ⟨rfl, hnl, rfl⟩
    · obtain ⟨hnl, hd⟩ := h.asked d q n hask
      exact ⟨hnl, hd.imp_right fun ⟨h1, h2, h3⟩ => ⟨h1, h2, hmono n q h3⟩⟩
    · have hto := howner n q
      rw [Network.fire_node_self] at hto
      refine ⟨hnl, hto.imp_right ?_⟩
      rintro ⟨hq, -, hnow, -⟩
      refine ⟨hq, ?_, hnow⟩
      unfold Handed at hnow
      rwa [Network.fire_node_self] at hnow
  · intro n q o page hm
    rcases List.mem_append.mp hm with hm | hm
    · obtain ⟨hnl, ho, hpage⟩ := h.reply n q o page (hp.symm.subset (List.mem_append_right _ hm))
      exact ⟨hnl, ho.imp_right fun ⟨h1, h2, h3⟩ => ⟨h1, h2, hmono n q h3⟩, hpage⟩
    · obtain ⟨hask, rfl, rfl⟩ := hr.replies n q o page hm
      obtain ⟨hnl, ho⟩ := h.asked o q n (Or.inr hask)
      refine ⟨hnl, ho.imp_right fun ⟨h1, h2, h3⟩ => ⟨h1, h2, hmono n q h3⟩, ?_⟩
      intro hq
      rcases ho with ho | ⟨-, rfl, hn⟩
      · rw [hq] at ho
        subst ho
        exact (h.content q hq).1
      · exact (h.content q hq).2 (h.first hne hq hn)
  · intro n q hq hn
    have hold : (s.node l).askOn = false ∧ ¬ Late s l n q := by
      rcases handed_of_fire hr hn with hn | ⟨rfl, -, -, -, hoff, hlate⟩
      · exact h.late n q hq hn
      · exact ⟨hoff, hlate⟩
    refine ⟨?_, fun hlate => hold.2 (late_of_fire hp hr hold.1 hlate)⟩
    by_cases hl : l = i
    · rw [hl, Network.fire_node_self]
      cases hon : r.1.askOn with
      | false => rfl
      | true =>
        have := hr.askOn hl.symm hon
        rw [hold.1] at this
        cases this
    · rw [Network.fire_node_ne _ _ _ hl]
      exact hold.1
  · intro q hq
    constructor
    · by_cases hl : l = i
      · subst hl
        rw [Network.fire_node_self, (hr.content q hq).1 rfl]
        exact (h.content q hq).1
      · rw [Network.fire_node_ne _ _ _ hl]
        exact (h.content q hq).1
    · intro hn
      unfold Handed at hn
      by_cases hl : newOwner = i
      · subst hl
        rw [Network.fire_node_self] at hn ⊢
        exact (hr.content q hq).2 rfl hn
      · rw [Network.fire_node_ne _ _ _ hl] at hn ⊢
        exact (h.content q hq).2 hn
  · intro n q hq hn hwait
    by_cases hi : n = i
    · subst hi
      have hn' := hn
      have hwait' := hwait
      unfold Handed at hn'
      rw [Network.fire_node_self] at hn' hwait'
      rcases hr.pending q hq hn' hwait' with ⟨hold, hw⟩ | hm
      · exact waits_fire hp hr (h.first hne hq hold) hwait (h.pending n q hq hold hw)
      · exact Or.inl (Or.inl (List.mem_append_right _ hm))
    · have hold : Handed newOwner s n q := by
        rcases handed_of_fire hr hn with hold | ⟨hni, -⟩
        · exact hold
        · exact absurd hni hi
      have hw := hwait
      rw [Network.fire_node_ne _ _ _ hi] at hw
      exact waits_fire hp hr (h.first hne hq hold) hwait (h.pending n q hq hold hw)
  · intro d sender q hm
    rcases List.mem_append.mp hm with hm | hm
    · exact h.valid d sender q (hp.symm.subset (List.mem_append_right _ hm))
    · exact hr.valid d sender q hm
  · intro n hn
    by_cases hi : n = i
    · subst hi
      rw [Network.fire_node_self]
      exact hr.others hn
    · rw [Network.fire_node_ne _ _ _ hi]
      exact h.others n hn

end Fire

/-! ## The steps of one node -/

section Moves

variable {i : Node} {ms : List (Msg Node Page C)} {r : Peer Node Page C × List (Msg Node Page C)}

/-- A step that keeps the pages and the requests, and handles and sends messages of the leave only.
-/
theorem TransferInv.frame (h : TransferInv l newOwner ow c₀ s)
    (hentry : ∀ q, (r.1.entry q).owner = ((s.node i).entry q).owner ∧
      (r.1.entry q).predicate = ((s.node i).entry q).predicate ∧
      (r.1.entry q).content = ((s.node i).entry q).content)
    (hasks : r.1.asks = (s.node i).asks) (hms : ∀ m ∈ ms, m.dest = i ∧ m.ofLeave = true)
    (hout : ∀ m ∈ r.2, m.ofLeave = true) (hon : r.1.askOn = true → (s.node i).askOn = true)
    (hothers : i ≠ l → r.1.recvOn = (s.node i).recvOn ∧ r.1.askOn = (s.node i).askOn ∧
      r.1.leave = (s.node i).leave) : TransferMove l newOwner ow c₀ s i ms r where
  owner := fun q => Or.inl (hentry q).1
  asks := by
    intro a ha n q hfor
    rw [hasks] at ha
    exact Or.inl ⟨a, ha, hfor⟩
  sent := fun d q n hm => by cases hout _ hm
  replies := fun n q o page hm => by cases hout _ hm
  askOn := by
    rintro rfl
    exact hon
  content := by
    intro q hq
    refine ⟨fun _ => (hentry q).2.2, ?_⟩
    rintro rfl ho
    rw [(hentry q).2.2]
    rw [(hentry q).1] at ho
    exact (h.content q hq).2 ho
  pending := by
    intro q hq ho hw
    rw [(hentry q).1] at ho
    rw [(hentry q).2.1] at hw
    exact Or.inl ⟨ho, hw⟩
  keepAsks := by
    rintro n q - - (hb | hm)
    · rw [hasks]
      exact Or.inl hb
    · cases (hms _ hm).2
  keepReplies := fun n q o page hm => by cases (hms _ hm).2
  dest := fun m hm => (hms m hm).1
  valid := fun d sender q hm => by cases hout _ hm
  others := by
    intro hi
    obtain ⟨h1, h2, h3⟩ := hothers hi
    rw [h1, h2, h3]
    exact h.others i hi

/-- A change of the entry of one page: the leaver keeps the contents, and the new owner has those
that were handed over. -/
theorem TransferInv.content_set (h : TransferInv l newOwner ow c₀ s) {q : Page} {e : Entry Node C}
    (he : ow q = l → (i = l → e.content = ((s.node i).entry q).content) ∧
      (i = newOwner → e.owner = newOwner → e.content = c₀ q)) :
    ∀ q', ow q' = l →
      (i = l → (Function.update (s.node i).entry q e q').content =
        ((s.node i).entry q').content) ∧
      (i = newOwner → (Function.update (s.node i).entry q e q').owner = newOwner →
        (Function.update (s.node i).entry q e q').content = c₀ q') := by
  refine forall_update (Q := fun q' e => ow q' = l →
    (i = l → e.content = ((s.node i).entry q').content) ∧
      (i = newOwner → e.owner = newOwner → e.content = c₀ q')) ?_ he
  intro q' hq'
  refine ⟨fun _ => rfl, ?_⟩
  rintro rfl hown
  exact (h.content q' hq').2 hown

/-- A change of the entry of one page that keeps its owner and its contents. -/
theorem TransferInv.content_update (h : TransferInv l newOwner ow c₀ s) {q : Page}
    {e : Entry Node C} (ho : e.owner = ((s.node i).entry q).owner)
    (hc : e.content = ((s.node i).entry q).content) :
    ∀ q', ow q' = l →
      (i = l → (Function.update (s.node i).entry q e q').content =
        ((s.node i).entry q').content) ∧
      (i = newOwner → (Function.update (s.node i).entry q e q').owner = newOwner →
        (Function.update (s.node i).entry q e q').content = c₀ q') := by
  apply h.content_set
  intro hq
  refine ⟨fun _ => hc, ?_⟩
  rintro rfl hown
  rw [hc]
  exact (h.content q hq).2 (ho.symm.trans hown)

omit [DecidableEq Node] in
/-- A change of the entry of one page, whose node still waits for the page or has just asked for it.
-/
theorem pending_set {q : Page} {e : Entry Node C} {out : List (Msg Node Page C)}
    (he : ow q = l → e.owner = newOwner → e.predicate = false →
      (Handed newOwner s i q ∧ ((s.node i).entry q).predicate = false) ∨
        .askPage newOwner q i ∈ out) :
    ∀ q', ow q' = l → (Function.update (s.node i).entry q e q').owner = newOwner →
      (Function.update (s.node i).entry q e q').predicate = false →
      (Handed newOwner s i q' ∧ ((s.node i).entry q').predicate = false) ∨
        .askPage newOwner q' i ∈ out :=
  forall_update (Q := fun q' e => ow q' = l → e.owner = newOwner → e.predicate = false →
    (Handed newOwner s i q' ∧ ((s.node i).entry q').predicate = false) ∨
      .askPage newOwner q' i ∈ out) (fun _ _ ho hw => Or.inl ⟨ho, hw⟩) he

theorem transferMove_syncPage (h : TransferInv l newOwner ow c₀ s) (hi : i ≠ l) {q : Page}
    {writing : Bool} (hr : syncPage i (s.node i) q writing = some r) :
    TransferMove l newOwner ow c₀ s i [] r := by
  simp only [syncPage] at hr
  split at hr
  · split at hr
    · cases hr
      exact h.frame (fun _ => ⟨rfl, rfl, rfl⟩) rfl (by simp) (by simp) id fun _ => ⟨rfl, rfl, rfl⟩
    · cases hr
      have howner : ∀ q', (Function.update (s.node i).entry q
          { (s.node i).entry q with predicate := false } q').owner =
            ((s.node i).entry q').owner :=
        forall_update (Q := fun q' e => e.owner = ((s.node i).entry q').owner) (fun _ => rfl) rfl
      refine ⟨fun q' => Or.inl (howner q'), fun a ha n q' hfor => Or.inl ⟨a, ha, hfor⟩, ?_, ?_,
        fun hl => absurd hl hi, h.content_update rfl rfl, ?_, ?_, ?_, by simp, ?_, ?_⟩
      · intro d q' n hm
        obtain ⟨rfl, rfl, rfl⟩ : d = ((s.node i).entry q).owner ∧ q' = q ∧ n = i := by
          simpa using hm
        exact ⟨rfl, hi, (howner q').symm⟩
      · intro n q' o page hm
        simp at hm
      · apply pending_set
        intro _ ho _
        change ((s.node i).entry q).owner = newOwner at ho
        rw [ho]
        exact Or.inr List.mem_cons_self
      · rintro n q' - - (hb | hm)
        · exact Or.inl hb
        · cases hm
      · intro n q' o page hm
        cases hm
      · intro d sender q' hm
        simp at hm
      · intro _
        exact h.others i hi
  · cases hr

theorem transferMove_askPass (h : TransferInv l newOwner ow c₀ s) {a : Ask Node Page}
    {p' : Peer Node Page C} (hp' : askPass (s.node i) a = some p') :
    TransferMove l newOwner ow c₀ s i [] (p', []) := by
  unfold askPass at hp'
  split at hp'
  · rename_i hcond
    cases hp'
    have hsame : TransferMove l newOwner ow c₀ s i [] (s.node i, []) :=
      h.frame (fun _ => ⟨rfl, rfl, rfl⟩) rfl (by simp) (by simp) id fun _ => ⟨rfl, rfl, rfl⟩
    refine { hsame with asks := ?_, keepAsks := ?_ }
    · intro b hb n q hfor
      rcases List.mem_cons.mp hb with rfl | hb
      · exact Or.inl ⟨a, hcond.1, hfor⟩
      · exact Or.inl ⟨b, List.mem_of_mem_erase hb, hfor⟩
    · rintro n q - - (⟨b, hb, hfor⟩ | hm)
      · left
        by_cases hba : b = a
        · subst hba
          exact ⟨_, List.mem_cons_self, hfor⟩
        · exact ⟨b, List.mem_cons_of_mem _ ((List.mem_erase_of_ne hba).mpr hb), hfor⟩
      · cases hm
  · cases hp'

/-- A request is only with a node that owns the page. -/
theorem TransferInv.owner_of_ask (h : TransferInv l newOwner ow c₀ s) (hne : newOwner ≠ l)
    {a : Ask Node Page} (ha : a ∈ (s.node i).asks) : ((s.node i).entry a.page).owner = i := by
  have hfor : Ask.isFor a.requester a.page a = true := by simp [Ask.isFor]
  obtain ⟨-, hto | ⟨hq, hto, hreq⟩⟩ := h.asked i a.page a.requester (Or.inr ⟨a, ha, hfor⟩)
  · rcases h.owner i a.page with ho | ⟨hq, hil, -⟩
    · exact ho.trans hto.symm
    · exact absurd (hto.trans hq) hil
  · have hfirst := h.first hne hq hreq
    subst hto
    exact hfirst

theorem transferMove_askAnswer (h : TransferInv l newOwner ow c₀ s) (hne : newOwner ≠ l)
    {a : Ask Node Page} (hr : askAnswer i (s.node i) a = some r) :
    TransferMove l newOwner ow c₀ s i [] r := by
  simp only [askAnswer] at hr
  split at hr
  · rename_i hcond
    have hown := h.owner_of_ask hne hcond.1
    rw [if_pos hown] at hr
    cases hr
    refine ⟨?_, ?_, ?_, ?_, fun _ hon => ?_, h.content_update rfl rfl, ?_, ?_, ?_, by simp, ?_,
      fun hi => h.others i hi⟩
    · exact forall_update (Q := fun q' e => e.owner = ((s.node i).entry q').owner ∨ _)
        (fun _ => Or.inl rfl) (Or.inl rfl)
    · intro b hb n q hfor
      exact Or.inl ⟨b, List.mem_of_mem_erase hb, hfor⟩
    · intro d q n hm
      simp at hm
    · intro n q o page hm
      obtain ⟨rfl, rfl, rfl, rfl⟩ : n = a.requester ∧ q = a.page ∧ o = i ∧
          page = ((s.node i).entry a.page).content := by
        simpa using hm
      exact ⟨⟨a, hcond.1, by simp [Ask.isFor]⟩, rfl, rfl⟩
    · subst_vars
      exact hon
    · apply pending_set
      exact fun _ ho hw => Or.inl ⟨ho, hw⟩
    · rintro n q - - (⟨b, hb, hfor⟩ | hm)
      · by_cases hba : b = a
        · subst hba
          obtain ⟨rfl, rfl⟩ : b.page = q ∧ b.requester = n := by simpa [Ask.isFor] using hfor
          exact Or.inr ⟨i, _, List.mem_cons_self⟩
        · exact Or.inl ⟨b, (List.mem_erase_of_ne hba).mpr hb, hfor⟩
      · cases hm
    · intro n q o page hm
      cases hm
    · intro d sender q hm
      simp at hm
  · cases hr

theorem transferMove_askPage (h : TransferInv l newOwner ow c₀ s) (hne : newOwner ≠ l) {q : Page}
    {n : Node} (hr : handle i (s.node i) (.askPage i q n) = some r) :
    TransferMove l newOwner ow c₀ s i [.askPage i q n] r := by
  have hsame : TransferMove l newOwner ow c₀ s i [] (s.node i, []) :=
    h.frame (fun _ => ⟨rfl, rfl, rfl⟩) rfl (by simp) (by simp) id fun _ => ⟨rfl, rfl, rfl⟩
  simp only [handle] at hr
  split at hr
  · rename_i hon
    cases hr
    refine { hsame with
      asks := ?_, keepAsks := ?_, keepReplies := by simp, dest := by simp [Msg.dest] }
    · intro a ha k q' hfor
      rcases List.mem_cons.mp ha with rfl | ha
      · right
        obtain ⟨rfl, rfl⟩ : q = q' ∧ n = k := by simpa [Ask.isFor] using hfor
        exact ⟨List.mem_cons_self, hon⟩
      · exact Or.inl ⟨a, ha, hfor⟩
    · rintro k q' - - (⟨b, hb, hfor⟩ | hm)
      · exact Or.inl ⟨b, List.mem_cons_of_mem _ hb, hfor⟩
      · obtain ⟨rfl, rfl⟩ : q' = q ∧ k = n := by simpa using hm
        exact Or.inl ⟨_, List.mem_cons_self, by simp [Ask.isFor]⟩
  · rename_i hoff
    cases hr
    -- only the leaver takes no requests
    refine { hsame with
      asks := ?_, keepAsks := ?_, keepReplies := by simp, dest := by simp [Msg.dest] }
    · intro a ha k q' hfor
      exact Or.inl ⟨a, ha, hfor⟩
    · intro k q' hi
      exact absurd (h.others i (hi ▸ hne)).2.1 hoff

theorem transferMove_recvPage (h : TransferInv l newOwner ow c₀ s) (hne : newOwner ≠ l) {q : Page}
    {o : Node} {page : C} (hm : .recvPage i q o page ∈ s.msgs)
    (hr : handle i (s.node i) (.recvPage i q o page) = some r) :
    TransferMove l newOwner ow c₀ s i [.recvPage i q o page] r := by
  obtain ⟨hil, ho, hpage⟩ := h.reply i q o page hm
  obtain ⟨hrecv, hask, hleave⟩ := h.others i hil
  -- the reply does not change the owner
  have hsame : o = ((s.node i).entry q).owner := by
    rcases ho with rfl | ⟨hq, rfl, hn⟩
    · rcases h.owner i q with ho | ⟨hq, -, hn, -⟩
      · exact ho.symm
      · refine absurd ?_ (h.late i q hq hn).2
        exact Or.inr ⟨_, hm, by simp [Msg.isReply, hq]⟩
    · exact hn.symm
  simp only [handle, hrecv, if_true, Peer.free, hleave] at hr
  cases hr
  refine ⟨?_, fun a ha n q' hfor => Or.inl ⟨a, ha, hfor⟩, by simp, by simp,
    fun hl => absurd hl hil, ?_, ?_, ?_, ?_, by simp [Msg.dest], by simp,
    fun _ => ⟨hrecv, hask, hleave⟩⟩
  · refine forall_update (Q := fun q' e => e.owner = ((s.node i).entry q').owner ∨ _)
      (fun _ => Or.inl rfl) ?_
    rw [updatePage_owner]
    exact Or.inl hsame
  · apply h.content_set
    intro hq
    refine ⟨fun hl => absurd hl hil, fun _ _ => ?_⟩
    rw [updatePage_content]
    exact hpage hq
  · apply pending_set
    intro _ _ hw
    rw [updatePage_predicate] at hw
    cases hw
  · rintro n q' - - (hb | hm)
    · exact Or.inl hb
    · simp at hm
  · intro n q' o' page' hm'
    obtain ⟨rfl, rfl, -, -⟩ : n = i ∧ q' = q ∧ o' = o ∧ page' = page := by simpa using hm'
    refine ⟨rfl, ?_⟩
    show (Function.update (s.node n).entry q' _ q').predicate = true
    rw [Function.update_self]
    exact updatePage_predicate _ _ _

theorem transferMove_handPage [DecidableEq C] (h : TransferInv l newOwner ow c₀ s)
    {x : Hand Node Page C} (hnew : x.newOwner = newOwner) {q : Page} {page : Option C}
    {todo : List (Page × Option C)} (htodo : x.todo = (q, page) :: todo)
    (hpage : i = newOwner → page = some (c₀ q)) (hover : HandsOver l newOwner ow s i q)
    (hr : handPage i (s.node i) x = some r) : TransferMove l newOwner ow c₀ s i [] r := by
  have hil := hover.2.1
  have howner : ∀ e : Entry Node C, e.owner = newOwner → ∀ q',
      (Function.update (s.node i).entry q e q').owner = ((s.node i).entry q').owner ∨
      ((Function.update (s.node i).entry q e q').owner = newOwner ∧
        HandsOver l newOwner ow s i q') := by
    intro e he
    exact forall_update (Q := fun q' e => e.owner = ((s.node i).entry q').owner ∨
      (e.owner = newOwner ∧ HandsOver l newOwner ow s i q')) (fun _ => Or.inl rfl)
      (Or.inr ⟨he, hover⟩)
  have hcontent : ∀ e : Entry Node C, (i = newOwner → e.content = c₀ q) → ∀ q', ow q' = l →
      (i = l → (Function.update (s.node i).entry q e q').content =
        ((s.node i).entry q').content) ∧
      (i = newOwner → (Function.update (s.node i).entry q e q').owner = newOwner →
        (Function.update (s.node i).entry q e q').content = c₀ q') := by
    intro e he
    apply h.content_set
    intro _
    exact ⟨fun hl => absurd hl hil, fun hi _ => he hi⟩
  have hkeep : ∀ n q', i = newOwner → Handed newOwner s newOwner q' →
      ((∃ b ∈ (s.node i).asks, Ask.isFor n q' b) ∨
        (.askPage i q' n : Msg Node Page C) ∈ []) →
      ∀ out : List (Msg Node Page C), (∃ b ∈ (s.node i).asks, Ask.isFor n q' b) ∨
        ∃ o page, .recvPage n q' o page ∈ out := by
    rintro n q' - - (hb | hm) out
    · exact Or.inl hb
    · cases hm
  simp only [handPage, htodo] at hr
  split at hr
  · split at hr
    · cases page with
      | some page =>
        cases hr
        refine ⟨howner _ ((updatePage_owner _ _ _).trans hnew), fun a ha n q' hfor =>
          Or.inl ⟨a, ha, hfor⟩, by simp, by simp, fun hl => absurd hl hil, hcontent _ ?_, ?_,
          fun n q' hi hf hb => hkeep n q' hi hf hb _, by simp, by simp, by simp,
          fun _ => h.others i hil⟩
        · intro hi
          rw [updatePage_content]
          exact Option.some.inj (hpage hi)
        · apply pending_set
          intro _ _ hw
          rw [updatePage_predicate] at hw
          cases hw
      | none =>
        cases hr
        have hi : i ≠ newOwner := fun hi => by cases hpage hi
        refine ⟨howner _ hnew, fun a ha n q' hfor => Or.inl ⟨a, ha, hfor⟩, ?_, ?_,
          fun hl => absurd hl hil, hcontent _ (fun hi' => absurd hi' hi), ?_,
          fun n q' hi hf hb => hkeep n q' hi hf hb _, by simp, by simp, ?_,
          fun _ => h.others i hil⟩
        · intro d q' n hm
          dsimp only at hm
          split at hm
          · cases hm
          · obtain ⟨rfl, rfl, rfl⟩ : d = x.newOwner ∧ q' = q ∧ n = i := by simpa using hm
            refine ⟨rfl, hil, ?_⟩
            show _ = (Function.update (s.node n).entry q' _ q').owner
            rw [Function.update_self]
        · intro n q' o page hm
          dsimp only at hm
          split at hm <;> simp at hm
        · apply pending_set
          intro _ _ hw
          change ((s.node i).entry q).predicate = false at hw
          right
          simp [hw, hnew]
        · intro d sender q' hm
          dsimp only at hm
          split at hm <;> simp at hm
    · cases hr
      exact h.frame (fun _ => ⟨rfl, rfl, rfl⟩) rfl (by simp) (by simp) id fun _ => ⟨rfl, rfl, rfl⟩
  · cases hr

end Moves

end Transfer

end PageTransfer
