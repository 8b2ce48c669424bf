import Psar.Core.RequestRing
import Psar.Core.Proofs.PageLockProofs
import Psar.Library.Proofs.NetworkProofs
import Psar.Library.Proofs.RingProofs

/-!
# Proofs: the request lists in memory

The functions on the rings do what those of `PageLock` do on the lists, and never access a cell that
is not allocated.
-/

namespace RequestRing

open PageLock (LockType Request CoreInfo)
open LinkedRing (Mem Cell Entries)

variable {Node : Type} [DecidableEq Node] {nbPages : ℕ} {m m' : Mem Addr}
  {ls : ℕ → List Addr} {lost : List Addr} {p : ℕ} {l l₁ l₂ : List Addr} {x : Addr}

/-! ## The rings of all pages -/

/-- The ring of `p` has changed, and no other ring. -/
theorem Rings.setPage {l' lost' : List Addr} (h : Rings nbPages m (Function.update ls p l) lost)
    (hp : p < nbPages) (hentries : Entries m' (.page p) l')
    (hsame : ∀ y, y ∉ .page p :: l → (∀ i, y = .cell i → y ∉ l') →
      LinkedRing.nextOf m' y = LinkedRing.nextOf m y ∧
        LinkedRing.prevOf m' y = LinkedRing.prevOf m y)
    (hcells : ∀ a ∈ l', (∃ i, a = .cell i) ∧ ∀ q, q < nbPages → q ≠ p → a ∉ ls q)
    (hlost : ∀ a ∈ lost', (∃ i, a = .cell i) ∧ a ∉ l' ∧
      ∀ q, q < nbPages → q ≠ p → a ∉ ls q)
    (hlive : ∀ i, (m' (.cell i)).isSome = true ↔
      (∃ q, q < nbPages ∧ Addr.cell i ∈ Function.update ls p l' q) ∨ Addr.cell i ∈ lost') :
    Rings nbPages m' (Function.update ls p l') lost' where
  entries := fun q hq => by
    by_cases hqp : q = p
    · subst hqp
      rwa [Function.update_self]
    · have hold := h.entries q hq
      rw [Function.update_of_ne hqp] at hold ⊢
      refine hold.congr fun y hy => hsame y ?_ ?_
      · intro hyp
        rcases List.mem_cons.mp hy with rfl | hy
        · rcases List.mem_cons.mp hyp with heq | hyl
          · exact hqp (by simpa using heq)
          · obtain ⟨i, hi⟩ := h.cells p hp _ (by rwa [Function.update_self])
            cases hi
        · obtain ⟨i, rfl⟩ := h.cells q hq y (by rwa [Function.update_of_ne hqp])
          have hyl : Addr.cell i ∈ l := by simpa using hyp
          exact hqp (h.apart q p hq hp _ (by rwa [Function.update_of_ne hqp])
            (by rwa [Function.update_self]))
      · rintro i rfl hyl'
        have hyq : Addr.cell i ∈ ls q := by simpa using hy
        exact (hcells _ hyl').2 q hq hqp hyq
  cells := fun q hq a ha => by
    by_cases hqp : q = p
    · subst hqp
      rw [Function.update_self] at ha
      exact (hcells a ha).1
    · have hold := h.cells q hq a
      rw [Function.update_of_ne hqp] at ha hold
      exact hold ha
  apart := fun q q' hq hq' a ha ha' => by
    by_cases hqp : q = p
    · subst hqp
      by_cases hqq : q' = q
      · exact hqq.symm
      · rw [Function.update_self] at ha
        rw [Function.update_of_ne hqq] at ha'
        exact absurd ha' ((hcells a ha).2 q' hq' hqq)
    · rw [Function.update_of_ne hqp] at ha
      by_cases hqq : q' = p
      · subst hqq
        rw [Function.update_self] at ha'
        exact absurd ha ((hcells a ha').2 q hq hqp)
      · rw [Function.update_of_ne hqq] at ha'
        exact h.apart q q' hq hq' a (by rwa [Function.update_of_ne hqp])
          (by rwa [Function.update_of_ne hqq])
  loose := fun a ha => by
    obtain ⟨hcell, hnot, hother⟩ := hlost a ha
    refine ⟨hcell, fun q hq => ?_⟩
    by_cases hqp : q = p
    · subst hqp
      rwa [Function.update_self]
    · rw [Function.update_of_ne hqp]
      exact hother q hq hqp
  live := hlive

theorem exists_update (hp : p < nbPages) : (∃ q, q < nbPages ∧ x ∈ Function.update ls p l q) ↔
    x ∈ l ∨ ∃ q, q < nbPages ∧ q ≠ p ∧ x ∈ ls q := by
  constructor
  · rintro ⟨q, hq, hx⟩
    by_cases hqp : q = p
    · subst hqp
      rw [Function.update_self] at hx
      exact Or.inl hx
    · rw [Function.update_of_ne hqp] at hx
      exact Or.inr ⟨q, hq, hqp, hx⟩
  · rintro (hx | ⟨q, hq, hqp, hx⟩)
    · exact ⟨p, hp, by rwa [Function.update_self]⟩
    · exact ⟨q, hq, by rwa [Function.update_of_ne hqp]⟩

/-- The entries of the ring of `p` are cells of no other ring. -/
theorem Rings.other (h : Rings nbPages m (Function.update ls p l) lost) (hp : p < nbPages)
    (hx : x ∈ l) : (∃ i, x = .cell i) ∧ ∀ q, q < nbPages → q ≠ p → x ∉ ls q := by
  refine ⟨h.cells p hp x (by rwa [Function.update_self]), fun q hq hqp hxq => hqp ?_⟩
  exact h.apart q p hq hp x (by rwa [Function.update_of_ne hqp]) (by rwa [Function.update_self])

theorem Rings.lost_other (h : Rings nbPages m (Function.update ls p l) lost) (hp : p < nbPages)
    (hx : x ∈ lost) :
    (∃ i, x = .cell i) ∧ x ∉ l ∧ ∀ q, q < nbPages → q ≠ p → x ∉ ls q := by
  obtain ⟨hcell, hnot⟩ := h.loose x hx
  refine ⟨hcell, ?_, fun q hq hqp => ?_⟩
  · have := hnot p hp
    rwa [Function.update_self] at this
  · have := hnot q hq
    rwa [Function.update_of_ne hqp] at this

/-- `list_del` takes the entry out; the cell stays in memory. -/
theorem Rings.listDel (h : Rings nbPages m (Function.update ls p (l₁ ++ x :: l₂)) lost)
    (hp : p < nbPages) :
    ∃ m', listDel m x = some m' ∧
      Rings nbPages m' (Function.update ls p (l₁ ++ l₂)) (x :: lost) := by
  have hentries := h.entries p hp
  rw [Function.update_self] at hentries
  obtain ⟨m', hm', hentries', hs, hframe⟩ :=
    LinkedRing.remove_entry hentries Addr.poison1 Addr.poison2
  have hx : x ∈ l₁ ++ x :: l₂ := by simp
  have hnot : x ∉ l₁ ++ l₂ := by
    have hnodup := (List.nodup_cons.mp hentries.nodup).2
    exact ((List.nodup_middle.mp hnodup).notMem)
  refine ⟨m', hm', h.setPage hp hentries' (fun y hy _ => hframe y hy) ?_ ?_ ?_⟩
  · exact fun a ha => h.other hp (by simp at ha ⊢; tauto)
  · intro a ha
    rcases List.mem_cons.mp ha with rfl | ha
    · exact ⟨(h.other hp hx).1, hnot, (h.other hp hx).2⟩
    · obtain ⟨hcell, hnl, hother⟩ := h.lost_other hp ha
      exact ⟨hcell, by simp at hnl ⊢; tauto, hother⟩
  · intro i
    rw [hs, h.live, exists_update hp, exists_update hp]
    simp only [List.mem_append, List.mem_cons]
    by_cases hix : Addr.cell i = x
    · simp [hix]
    · simp [hix, or_assoc]

/-- `free` of a cell that is in no ring. -/
theorem Rings.free (h : Rings nbPages m ls (x :: lost)) (hx : x ∉ lost) :
    ∃ m', LinkedRing.free m x = some m' ∧ Rings nbPages m' ls lost := by
  obtain ⟨⟨i, rfl⟩, hnot⟩ := h.loose x List.mem_cons_self
  obtain ⟨m', hm', hsame, hnone⟩ :=
    LinkedRing.free_spec ((h.live i).mpr (Or.inr List.mem_cons_self))
  refine ⟨m', hm', fun p hp => (h.entries p hp).congr fun y hy => ?_, h.cells, h.apart,
    fun a ha => h.loose a (List.mem_cons_of_mem _ ha), fun j => ?_⟩
  · have hy' : y ≠ .cell i := by
      rintro rfl
      exact hnot p hp (by simpa using hy)
    simp [LinkedRing.nextOf, LinkedRing.prevOf, hsame y hy']
  · by_cases hj : j = i
    · subst hj
      rw [hnone]
      simp only [Option.isSome_none, Bool.false_eq_true, false_iff, not_or, not_exists, not_and]
      exact ⟨hnot, hx⟩
    · have hne : Addr.cell j ≠ .cell i := by simpa using hj
      rw [hsame _ hne, h.live]
      simp [hne]

/-- `list_del` and `free`. -/
theorem Rings.listDel_free (h : Rings nbPages m (Function.update ls p (l₁ ++ x :: l₂)) lost)
    (hp : p < nbPages) :
    ∃ m₁ m', RequestRing.listDel m x = some m₁ ∧ LinkedRing.free m₁ x = some m' ∧
      Rings nbPages m' (Function.update ls p (l₁ ++ l₂)) lost := by
  obtain ⟨m₁, hm₁, h₁⟩ := h.listDel hp
  have hx : x ∉ lost := fun hx => (h.lost_other hp hx).2.1 (by simp)
  obtain ⟨m', hm', h'⟩ := h₁.free hx
  exact ⟨m₁, m', hm₁, hm', h'⟩

/-- `list_add` of a cell that `malloc` has returned. -/
theorem Rings.push (h : Rings nbPages m (Function.update ls p l) lost) (hp : p < nbPages) {i : ℕ}
    (hnew : m (.cell i) = none) (old : Cell Addr) :
    ∃ m', LinkedRing.push (LinkedRing.alloc m (.cell i) old) (.cell i) (.page p) = some m' ∧
      Rings nbPages m' (Function.update ls p (.cell i :: l)) lost := by
  have hlive := h.live i
  rw [hnew, exists_update hp] at hlive
  simp only [Option.isSome_none, Bool.false_eq_true, false_iff, not_or, not_exists, not_and] at hlive
  obtain ⟨⟨hl, hother⟩, hlost⟩ := hlive
  have hentries := h.entries p hp
  rw [Function.update_self] at hentries
  have hout : Addr.cell i ∉ Addr.page p :: l := by simpa using hl
  have halloc : ∀ y, y ≠ Addr.cell i → LinkedRing.alloc m (.cell i) old y = m y :=
    fun y hy => Function.update_of_ne hy _ _
  obtain ⟨m', hm', hentries', hs, hframe⟩ := LinkedRing.push_spec (LinkedRing.alloc_spec hentries
    hout old) (show (LinkedRing.alloc m (.cell i) old (.cell i)).isSome by simp [LinkedRing.alloc])
    hout
  refine ⟨m', hm', h.setPage hp hentries' ?_ ?_ ?_ ?_⟩
  · intro y hy hcell
    have hne : y ≠ Addr.cell i := fun heq => hcell i heq (by simp [heq])
    obtain ⟨hn, hpv⟩ := hframe y (by simp at hy ⊢; tauto)
    rw [hn, hpv]
    simp [LinkedRing.nextOf, LinkedRing.prevOf, halloc y hne]
  · intro a ha
    rcases List.mem_cons.mp ha with rfl | ha
    · exact ⟨⟨i, rfl⟩, fun q hq hqp => hother q hq hqp⟩
    · exact h.other hp ha
  · intro a ha
    obtain ⟨hcell, hnl, ho⟩ := h.lost_other hp ha
    refine ⟨hcell, ?_, ho⟩
    intro hmem
    rcases List.mem_cons.mp hmem with rfl | hmem
    · exact hlost ha
    · exact hnl hmem
  · intro j
    rw [hs]
    by_cases hj : j = i
    · subst hj
      simp [LinkedRing.alloc, exists_update hp]
    · have hne : Addr.cell j ≠ .cell i := by simpa using hj
      rw [halloc _ hne, h.live, exists_update hp, exists_update hp]
      simp [hne]

/-! ## The functions -/

variable {h h' : Heap Node} {fuel : ℕ} {who : Node}

omit [DecidableEq Node] in
theorem readRequest_live {req : Addr → Request Node}
    (h : Rings nbPages m (Function.update ls p (l₁ ++ x :: l₂)) lost) (hp : p < nbPages) :
    readRequest req m x = some (req x) := by
  have hx : x ∈ l₁ ++ x :: l₂ := by simp
  obtain ⟨i, rfl⟩ := (h.other hp hx).1
  have hlive := (h.live i).mpr (Or.inl ((exists_update hp).mpr (Or.inl hx)))
  obtain ⟨c, hc⟩ := Option.isSome_iff_exists.mp hlive
  simp [readRequest, hc]

omit [DecidableEq Node] in
theorem rep_addRequest (who : Node) {c : ℕ → CoreInfo Node} (hr : Rep nbPages h c ls lost) (hp : p < nbPages)
    {i : ℕ} (hnew : h.mem (.cell i) = none) (old : Cell Addr) (mode : LockType) :
    ∃ h', addRequest h p who mode i old = some h' ∧
      Rep nbPages h' (Function.update c p (PageLock.addRequest (c p) who mode))
        (Function.update ls p (.cell i :: ls p)) lost := by
  have hrings := hr.rings
  rw [← Function.update_eq_self p ls] at hrings
  obtain ⟨m', hm', hrings'⟩ := hrings.push hp hnew old
  refine ⟨_, by rw [addRequest, hm']; rfl, hrings', fun q hq => ?_⟩
  -- the new cell is in no ring, so the other requests are as before
  have hnot : ∀ q, q < nbPages → Addr.cell i ∉ ls q := fun q hq hmem => by
    have := (hr.rings.live i).mpr (Or.inl ⟨q, hq, hmem⟩)
    simp [hnew] at this
  have hold : ∀ q, q < nbPages → (ls q).map (Function.update h.req (.cell i) ⟨mode, who⟩) =
      (c q).request := fun q hq => by
    rw [← hr.request q hq]
    refine List.map_congr_left fun a ha => Function.update_of_ne ?_ _ _
    rintro rfl
    exact hnot q hq ha
  by_cases hqp : q = p
  · subst hqp
    simp [PageLock.addRequest, hold q hq]
  · rw [Function.update_of_ne hqp, Function.update_of_ne hqp]
    exact hold q hq

omit [DecidableEq Node] in
theorem rep_of_loop {c : ℕ → CoreInfo Node} {lost' : List Addr} {f : CoreInfo Node → CoreInfo Node}
    (hr : Rep nbPages h c ls lost) (hrings : Rings nbPages m' (Function.update ls p l) lost')
    (hrequest : l.map h.req = (f (c p)).request) :
    Rep nbPages { h with mem := m' } (Function.update c p (f (c p))) (Function.update ls p l)
      lost' := by
  refine ⟨hrings, fun q hq => ?_⟩
  by_cases hqp : q = p
  · subst hqp
    rwa [Function.update_self, Function.update_self]
  · rw [Function.update_of_ne hqp, Function.update_of_ne hqp]
    exact hr.request q hq

/-- The rule for the loops over the ring of a page. -/
theorem loop_page (keep stop : Addr → Bool) (body : Mem Addr → Addr → Option (Mem Addr × Bool))
    {J : List Addr → Prop} (hrings : Rings nbPages m ls lost) (hJ : J lost) (hp : p < nbPages)
    (hfuel : (ls p).length < fuel)
    (hbody : ∀ l₁ x l₂ m lost, Rings nbPages m (Function.update ls p (l₁ ++ x :: l₂)) lost →
      J lost → ∃ m' lost', body m x = some (m', stop x) ∧ J lost' ∧
        Rings nbPages m' (Function.update ls p (l₁ ++ (if keep x then [x] else []) ++ l₂)) lost') :
    ∃ m' lost', LinkedRing.forEachSafe (.page p) body fuel m = some m' ∧ J lost' ∧
      Rings nbPages m' (Function.update ls p (LinkedRing.sweep keep stop (ls p))) lost' := by
  have hbody' : ∀ l₁ x l₂ m,
      (∃ lost, J lost ∧ Rings nbPages m (Function.update ls p (l₁ ++ x :: l₂)) lost) →
      ∃ m', body m x = some (m', stop x) ∧ ∃ lost, J lost ∧
        Rings nbPages m' (Function.update ls p (l₁ ++ (if keep x then [x] else []) ++ l₂)) lost := by
    rintro l₁ x l₂ m ⟨lost, hJ, hrings⟩
    obtain ⟨m', lost', hm', hJ', hrings'⟩ := hbody l₁ x l₂ m lost hrings hJ
    exact ⟨m', hm', lost', hJ', hrings'⟩
  rw [← Function.update_eq_self p ls] at hrings
  obtain ⟨m', hm', lost', hJ', hrings'⟩ := LinkedRing.forEachSafe_spec
    (I := fun l m => ∃ lost, J lost ∧ Rings nbPages m (Function.update ls p l) lost)
    (fun l m ⟨lost, _, hm⟩ => by simpa using hm.entries p hp) hbody' ⟨lost, hJ, hrings⟩ hfuel
  exact ⟨m', lost', hm', hJ', hrings'⟩

theorem rep_removeRequest {c : ℕ → CoreInfo Node} (hr : Rep nbPages h c ls lost)
    (hp : p < nbPages) (hfuel : (ls p).length < fuel) (who : Node) :
    ∃ h' l, removeRequest fuel h p who = some h' ∧
      Rep nbPages h' (Function.update c p (PageLock.removeRequest (c p) who))
        (Function.update ls p l) lost := by
  obtain ⟨m', lost', hm', rfl, hrings⟩ := loop_page (J := (· = lost))
    (fun x => !decide ((h.req x).who = who)) (fun x => (h.req x).who = who)
    (fun m c => do
      let r ← readRequest h.req m c
      if r.who = who then do
        let m ← listDel m c
        let m ← LinkedRing.free m c
        some (m, true)
      else some (m, false))
    hr.rings rfl hp hfuel (by
      rintro l₁ x l₂ m lost hm rfl
      by_cases hx : (h.req x).who = who
      · obtain ⟨m₁, m', hm₁, hm', hrings⟩ := hm.listDel_free hp
        exact ⟨m', lost, by simp [readRequest_live hm hp, hx, hm₁, hm'], rfl, by simpa [hx] using hrings⟩
      · exact ⟨m, lost, by simp [readRequest_live hm hp, hx], rfl, by simpa [hx] using hm⟩)
  rw [LinkedRing.sweep_eraseP] at hrings
  refine ⟨_, _, by rw [removeRequest, hm']; rfl,
    rep_of_loop (f := fun c => PageLock.removeRequest c who) hr hrings ?_⟩
  rw [PageLock.removeRequest, ← hr.request p hp, List.eraseP_map]
  rfl

omit [DecidableEq Node] in
theorem rep_cleanRequests {c : ℕ → CoreInfo Node} (hr : Rep nbPages h c ls lost)
    (hp : p < nbPages) (hfuel : (ls p).length < fuel) :
    ∃ h' l, cleanRequests fuel h p = some h' ∧
      Rep nbPages h' (Function.update c p (PageLock.cleanRequests (c p)))
        (Function.update ls p l) lost := by
  obtain ⟨m', lost', hm', rfl, hrings⟩ := loop_page (J := (· = lost))
    (fun _ => false) (fun _ => false)
    (fun m c => do
      let m ← listDel m c
      let m ← LinkedRing.free m c
      some (m, false))
    hr.rings rfl hp hfuel (by
      rintro l₁ x l₂ m lost hm rfl
      obtain ⟨m₁, m', hm₁, hm', hrings⟩ := hm.listDel_free hp
      exact ⟨m', lost, by simp [hm₁, hm'], rfl, by simpa using hrings⟩)
  rw [LinkedRing.sweep_none] at hrings
  exact ⟨_, _, by rw [cleanRequests, hm']; rfl,
    rep_of_loop (f := PageLock.cleanRequests) hr hrings rfl⟩

theorem rep_handleDelegatePage {c : ℕ → CoreInfo Node} (hr : Rep nbPages h c ls lost)
    (hp : p < nbPages) (hfuel : (ls p).length < fuel) (sender delegate : Node) :
    ∃ h' l lost', handleDelegatePage fuel h p sender = some h' ∧ l.length ≤ (ls p).length ∧
      Rep nbPages h' (Function.update c p (PageLock.handleDelegate (c p) sender delegate))
        (Function.update ls p l) lost' := by
  obtain ⟨m', lost', hm', -, hrings⟩ := loop_page (J := fun _ => True)
    (fun x => (h.req x).who ≠ sender) (fun _ => false)
    (fun m cur => do
      let r ← readRequest h.req m cur
      if r.who = sender then do
        let m ← listDel m cur
        some (m, false)
      else some (m, false))
    hr.rings trivial hp hfuel (by
      rintro l₁ x l₂ m lost hm -
      by_cases hx : (h.req x).who = sender
      · obtain ⟨m', hm', hrings⟩ := hm.listDel hp
        exact ⟨m', x :: lost, by simp [readRequest_live hm hp, hx, hm'], trivial,
          by simpa [hx] using hrings⟩
      · exact ⟨m, lost, by simp [readRequest_live hm hp, hx], trivial, by simpa [hx] using hm⟩)
  rw [LinkedRing.sweep_filter] at hrings
  refine ⟨_, _, lost', by rw [handleDelegatePage, hm']; rfl, List.length_filter_le _ _,
    rep_of_loop (f := fun c => PageLock.handleDelegate c sender delegate) hr hrings ?_⟩
  rw [PageLock.handleDelegate, ← hr.request p hp, List.filter_map]
  rfl

omit [DecidableEq Node] in
theorem Rep.length_le {c : ℕ → CoreInfo Node} (hr : Rep nbPages h c ls lost) {k : ℕ}
    (hk : ∀ p, p < nbPages → (c p).request.length ≤ k) (hp : p < nbPages) : (ls p).length ≤ k := by
  have := hk p hp
  rwa [← hr.request p hp, List.length_map] at this

theorem length_handleDelegate (c : CoreInfo Node) (sender delegate : Node) :
    (PageLock.handleDelegate c sender delegate).request.length ≤ c.request.length :=
  List.length_filter_le _ _

/-- The loop of `handle_DELEGATE` over the pages. -/
theorem rep_handleDelegate {c : ℕ → CoreInfo Node} (hr : Rep nbPages h c ls lost) {k : ℕ}
    (hk : ∀ p, p < nbPages → (c p).request.length ≤ k) (hfuel : k < fuel) (sender delegate : Node)
    {pages : List ℕ} (hpages : ∀ p ∈ pages, p < nbPages) (hnodup : pages.Nodup) :
    ∃ h' ls' lost', handleDelegate fuel sender pages h = some h' ∧
      Rep nbPages h' (fun p => if p ∈ pages then PageLock.handleDelegate (c p) sender delegate
        else c p) ls' lost' := by
  induction pages generalizing h c ls lost with
  | nil => exact ⟨h, ls, lost, rfl, by simpa using hr⟩
  | cons p pages ih =>
    obtain ⟨hnot, hnodup⟩ := List.nodup_cons.mp hnodup
    have hp := hpages p List.mem_cons_self
    obtain ⟨h₁, l, lost₁, hh₁, -, hr₁⟩ :=
      rep_handleDelegatePage hr hp ((hr.length_le hk hp).trans_lt hfuel) sender delegate
    have hk₁ : ∀ q, q < nbPages → (Function.update c p
        (PageLock.handleDelegate (c p) sender delegate) q).request.length ≤ k := by
      intro q hq
      by_cases hqp : q = p
      · subst hqp
        rw [Function.update_self]
        exact (length_handleDelegate _ _ _).trans (hk q hq)
      · rw [Function.update_of_ne hqp]
        exact hk q hq
    obtain ⟨h', ls', lost', hh', hr'⟩ :=
      ih hr₁ hk₁ (fun q hq => hpages q (List.mem_cons_of_mem _ hq)) hnodup
    refine ⟨h', ls', lost', by rw [handleDelegate, hh₁]; exact hh', ?_⟩
    convert hr' using 1
    funext q
    by_cases hqp : q = p
    · subst hqp
      simp [hnot]
    · simp [hqp]

/-! ## Runs -/

section Run

variable {c : ℕ → CoreInfo Node} {e : Event Node} {es : List (Event Node)} {k : ℕ}
  {req : Addr → Request Node}

theorem length_after (hk : ∀ p, p < nbPages → (c p).request.length ≤ k) :
    ∀ p, p < nbPages → (after nbPages c e p).request.length ≤ k + 1 := by
  intro p hp
  have hold := hk p hp
  cases e with
  | addRequest q who mode i old =>
    by_cases hpq : p = q
    · subst hpq
      simpa [after, PageLock.addRequest] using hold
    · simp only [after, Function.update_of_ne hpq]
      omega
  | removeRequest q who =>
    by_cases hpq : p = q
    · subst hpq
      simp only [after, Function.update_self, PageLock.removeRequest]
      exact (List.length_eraseP_le.trans hold).trans (Nat.le_succ k)
    · simp only [after, Function.update_of_ne hpq]
      omega
  | cleanRequests q =>
    by_cases hpq : p = q
    · subst hpq
      simp [after, PageLock.cleanRequests]
    · simp only [after, Function.update_of_ne hpq]
      omega
  | handleDelegate sender delegate =>
    simp only [after, if_pos hp]
    exact ((length_handleDelegate _ _ _).trans hold).trans (Nat.le_succ k)

theorem rep_step (hr : Rep nbPages h c ls lost)
    (hk : ∀ p, p < nbPages → (c p).request.length ≤ k) (hfuel : k < fuel)
    (hok : Allowed nbPages h e) :
    ∃ h' ls' lost', step fuel nbPages h e = some h' ∧
      Rep nbPages h' (after nbPages c e) ls' lost' ∧ (e.isDelegate = false → lost' = lost) := by
  cases e with
  | addRequest p who mode i old =>
    obtain ⟨h', hh', hr'⟩ := rep_addRequest who hr hok.1 hok.2 old mode
    exact ⟨h', _, lost, hh', hr', fun _ => rfl⟩
  | removeRequest p who =>
    obtain ⟨h', l, hh', hr'⟩ :=
      rep_removeRequest hr hok ((hr.length_le hk hok).trans_lt hfuel) who
    exact ⟨h', _, lost, hh', hr', fun _ => rfl⟩
  | cleanRequests p =>
    obtain ⟨h', l, hh', hr'⟩ := rep_cleanRequests hr hok ((hr.length_le hk hok).trans_lt hfuel)
    exact ⟨h', _, lost, hh', hr', fun _ => rfl⟩
  | handleDelegate sender delegate =>
    obtain ⟨h', ls', lost', hh', hr'⟩ := rep_handleDelegate hr hk hfuel sender delegate
      (fun p hp => List.mem_range.mp hp) List.nodup_range
    refine ⟨h', ls', lost', hh', by simpa [after] using hr', by simp [Event.isDelegate]⟩

theorem rep_run (hr : Rep nbPages h c ls lost)
    (hk : ∀ p, p < nbPages → (c p).request.length ≤ k) (hfuel : k + es.length < fuel)
    (hok : Network.Meets (step fuel nbPages) (Allowed nbPages) h es) :
    ∃ h' ls' lost', Network.run (step fuel nbPages) h es = some h' ∧
      Rep nbPages h' (es.foldl (after nbPages) c) ls' lost' ∧
      (∀ p, p < nbPages → ((es.foldl (after nbPages) c) p).request.length ≤ k + es.length) ∧
      ((∀ e ∈ es, e.isDelegate = false) → lost' = lost) := by
  induction es generalizing h c ls lost k with
  | nil => exact ⟨h, ls, lost, rfl, hr, hk, fun _ => rfl⟩
  | cons e es ih =>
    rw [List.length_cons] at hfuel
    have hk' : k < fuel := by omega
    obtain ⟨h₁, ls₁, lost₁, hh₁, hr₁, hlost₁⟩ := rep_step hr hk hk' hok.1
    obtain ⟨h', ls', lost', hh', hr', hlen, hlost'⟩ :=
      ih hr₁ (length_after hk) (by omega) (hok.2 h₁ hh₁)
    refine ⟨h', ls', lost', Network.run_cons_eq_some.mpr ⟨h₁, hh₁, hh'⟩, hr', ?_, ?_⟩
    · intro p hp
      have := hlen p hp
      rw [List.length_cons, List.foldl_cons]
      omega
    · intro hes
      rw [hlost' fun e he => hes e (List.mem_cons_of_mem _ he), hlost₁ (hes e List.mem_cons_self)]

omit [DecidableEq Node] in
theorem rep_initHeap (hc : ∀ p, (c p).request = []) :
    Rep nbPages (initHeap nbPages req) c (fun _ => []) [] where
  rings := by
    refine ⟨fun p hp => ⟨by simp, ?_⟩, by simp, by simp, by simp, fun i => by simp [initHeap]⟩
    simp [LinkedRing.Path, LinkedRing.Linked, LinkedRing.nextOf, LinkedRing.prevOf, initHeap, hp]
  request := fun p _ => by simp [hc p]

/-- The state that a run from the start ends in. -/
theorem rep_of_run (owner : Node) (hfuel : es.length < fuel)
    (hok : Network.Meets (step fuel nbPages) (Allowed nbPages) (initHeap nbPages req) es) :
    ∃ h ls lost, Network.run (step fuel nbPages) (initHeap nbPages req) es = some h ∧
      Rep nbPages h (es.foldl (after nbPages) fun _ => PageLock.initCore owner) ls lost ∧
      (∀ p, p < nbPages → (ls p).length < fuel) ∧
      ((∀ e ∈ es, e.isDelegate = false) → lost = []) := by
  obtain ⟨h, ls, lost, hrun, hr, hk, hlost⟩ := rep_run (k := 0) (c := fun _ => PageLock.initCore owner)
    (rep_initHeap fun _ => rfl) (fun _ _ => Nat.le_of_eq rfl) (by omega) hok
  exact ⟨h, ls, lost, hrun, hr, fun p hp => (hr.length_le hk hp).trans_lt (by omega), hlost⟩

/-- The rings are the lists: in every sequence of calls on the pages in which `malloc` returns cells
that are not allocated, no call accesses a cell that is not allocated, every loop ends, and the ring
of every page holds the requests that the list of the page has, in the same order. -/
theorem rings_are_lists (owner : Node) (hfuel : es.length < fuel)
    (hok : Network.Meets (step fuel nbPages) (Allowed nbPages) (initHeap nbPages req) es) :
    ∃ h, Network.run (step fuel nbPages) (initHeap nbPages req) es = some h ∧
      ∀ p, p < nbPages →
        Holds h p ((es.foldl (after nbPages) fun _ => PageLock.initCore owner) p).request := by
  obtain ⟨h, ls, lost, hrun, hr, -, -⟩ := rep_of_run owner hfuel hok
  exact ⟨h, hrun, fun p hp => ⟨ls p, hr.rings.entries p hp, hr.request p hp⟩⟩

/-- Two requests for page 0 and one for page 1; the first one leaves the ring of page 0 again. -/
def threeRequests : List (Event ℕ) :=
  [.addRequest 0 1 .write 0 ⟨.poison1, .poison2⟩, .addRequest 0 2 .read 1 ⟨.poison1, .poison2⟩,
    .addRequest 1 1 .read 2 ⟨.poison1, .poison2⟩, .removeRequest 0 1]

theorem rings_are_lists_threeRequests :
    ∃ h, Network.run (step 5 2) (initHeap 2 fun _ => ⟨.read, 0⟩) threeRequests = some h ∧
      ∀ p, p < 2 →
        Holds h p ((threeRequests.foldl (after 2) fun _ => PageLock.initCore 0) p).request :=
  rings_are_lists 0 (by decide) (by decide)

omit [DecidableEq Node] in
theorem Entries.listEmpty_eq (he : Entries h.mem (.page p) l) :
    listEmpty h p = some (decide (l = [])) := by
  rw [listEmpty, he.nextOf_head]
  cases l with
  | nil => simp
  | cons x l =>
    have hx : x ≠ Addr.page p := by
      rintro rfl
      simpa using he.nodup
    simp [hx]

/-- What the loops over a ring read is what is in the list: `list_empty`, `list_for_each_entry` and
the search for the last writer, which goes backwards. -/
theorem ring_reads_list (owner : Node) (hfuel : es.length < fuel)
    (hok : Network.Meets (step fuel nbPages) (Allowed nbPages) (initHeap nbPages req) es)
    (hrun : Network.run (step fuel nbPages) (initHeap nbPages req) es = some h)
    (hp : p < nbPages) :
    let core := (es.foldl (after nbPages) fun _ => PageLock.initCore owner) p
    listEmpty h p = some (decide (core.request = [])) ∧ requests fuel h p = some core.request ∧
      findLastWriter fuel h p = some (PageLock.findLastWriter core) := by
  intro core
  obtain ⟨h', ls, lost, hrun', hr, hlen, -⟩ := rep_of_run owner hfuel hok
  obtain rfl : h = h' := Option.some.inj (hrun.symm.trans hrun')
  have he := hr.rings.entries p hp
  have hmap : (ls p).map h.req = core.request := hr.request p hp
  refine ⟨?_, ?_, ?_⟩
  · rw [Entries.listEmpty_eq he, ← hmap]
    simp
  · rw [requests, LinkedRing.forEach_spec he (hlen p hp), Option.map_some, hmap]
  · rw [findLastWriter, LinkedRing.findBack_spec he (hlen p hp), Option.map_some,
      PageLock.findLastWriter, ← hmap, ← List.map_reverse, List.find?_map]
    rfl

theorem ring_reads_list_threeRequests :
    ∃ h, Network.run (step 5 2) (initHeap 2 fun _ => ⟨.read, 0⟩) threeRequests = some h ∧
      listEmpty h 0 = some false ∧ requests 5 h 0 = some [⟨.read, 2⟩] ∧
      findLastWriter 5 h 0 = some none := by
  obtain ⟨h, hrun⟩ := Option.isSome_iff_exists.mp
    (show (Network.run (step 5 2) (initHeap 2 fun _ => ⟨.read, 0⟩) threeRequests).isSome by decide)
  exact ⟨h, hrun, ring_reads_list 0 (by decide) (by decide) hrun (p := 0) (by decide)⟩

/-- No request is leaked: as long as no `DELEGATE` is handled, the requests that are allocated are
those that the loop over the ring of a page goes through. -/
theorem requests_in_rings (hfuel : es.length < fuel)
    (hok : Network.Meets (step fuel nbPages) (Allowed nbPages) (initHeap nbPages req) es)
    (hrun : Network.run (step fuel nbPages) (initHeap nbPages req) es = some h)
    (hes : ∀ e ∈ es, e.isDelegate = false) (i : ℕ) :
    (h.mem (.cell i)).isSome = true ↔ ∃ p cells, p < nbPages ∧
      LinkedRing.forEach h.mem (.page p) fuel = some cells ∧ .cell i ∈ cells := by
  obtain ⟨h', ls, lost, hrun', hr, hlen, hlost⟩ :=
    rep_of_run (h.req .poison1).who hfuel hok
  obtain rfl : h = h' := Option.some.inj (hrun.symm.trans hrun')
  obtain rfl := hlost hes
  have hwalk : ∀ p, p < nbPages → LinkedRing.forEach h.mem (.page p) fuel = some (ls p) :=
    fun p hp => LinkedRing.forEach_spec (hr.rings.entries p hp) (hlen p hp)
  rw [hr.rings.live]
  constructor
  · rintro (⟨p, hp, hi⟩ | hi)
    · exact ⟨p, ls p, hp, hwalk p hp, hi⟩
    · cases hi
  · rintro ⟨p, cells, hp, hcells, hi⟩
    rw [hwalk p hp] at hcells
    exact Or.inl ⟨p, hp, by rwa [← Option.some.inj hcells] at hi⟩

theorem requests_in_rings_threeRequests :
    ∃ h, Network.run (step 5 2) (initHeap 2 fun _ => ⟨.read, 0⟩) threeRequests = some h ∧
      ((h.mem (.cell 1)).isSome = true ↔ ∃ p cells, p < 2 ∧
        LinkedRing.forEach h.mem (.page p) 5 = some cells ∧ .cell 1 ∈ cells) := by
  obtain ⟨h, hrun⟩ := Option.isSome_iff_exists.mp
    (show (Network.run (step 5 2) (initHeap 2 fun _ => ⟨.read, 0⟩) threeRequests).isSome by decide)
  exact ⟨h, hrun, requests_in_rings (by decide) (by decide) hrun (by decide) 1⟩

end Run

end RequestRing
