import Psar.Dsm.RegionLock
import Psar.Core.Proofs.PageLockProofs
import Psar.Dsm.Proofs.RegionProofs
import Psar.Library.Proofs.NetworkProofs

/-!
# Proofs: locking regions

A page has one lock for all regions on it. As long as the regions are apart, every call returns and
every open region is locked; the first call that is not apart leaves an open region that is not.
-/

namespace Dsm

open PageLock (LockType LockStatus CoreInfo)

variable {Node : Type} [DecidableEq Node] {me : Node}

/-! ## One page -/

theorem askLock_alone {c : CoreInfo Node} (h : Alone me c) (m : LockType) :
    ∃ c', askLock me c m = some c' ∧ Alone me c' ∧
      c'.mode = if c.mode = .none then m.toStatus else c.mode := by
  unfold askLock
  by_cases hmode : c.mode = .none
  · have hrequest := h.request
    rw [hmode, if_neg (by simp)] at hrequest
    rw [if_pos hmode, if_pos hmode]
    cases m with
    | read =>
      refine ⟨PageLock.addRequest { c with mode := .reading } me .read, ?_, ⟨h.token, ?_⟩, rfl⟩
      · simp [PageLock.askLockBody, h.token, LockType.toStatus]
      · simp [PageLock.addRequest, hrequest]
    | write =>
      refine ⟨{ c with mode := .writing }, ?_, ⟨h.token, ?_⟩, rfl⟩
      · simp [PageLock.askLockBody, h.token, hrequest, LockType.toStatus]
      · simp [hrequest]
  · rw [if_neg hmode, if_neg hmode]
    exact ⟨c, rfl, h, rfl⟩

theorem unlockInternal_alone {c : CoreInfo Node} (h : Alone me c) (hmode : c.mode ≠ .none) :
    ∃ r, PageLock.unlockInternal me c = some r ∧ Alone me r.1 ∧ r.1.mode = .none := by
  have hrequest := h.request
  unfold PageLock.unlockInternal
  cases hc : c.mode with
  | none => exact absurd hc hmode
  | writing =>
    rw [hc, if_neg (by simp)] at hrequest
    refine ⟨({ c with mode := .none }, []), ?_, ⟨h.token, ?_⟩, rfl⟩
    · rw [hrequest]
    · rw [if_neg (by simp)]
      exact hrequest
  | reading =>
    rw [hc, if_pos rfl] at hrequest
    have hremove : PageLock.handleLocalUnlock me c me = ({ c with request := [] }, []) := by
      simp [PageLock.handleLocalUnlock, PageLock.removeRequest, hrequest]
    rw [if_pos h.token, hremove]
    exact ⟨_, rfl, ⟨h.token, by simp⟩, rfl⟩

/-! ## The loop of `exclude_others` -/

omit [DecidableEq Node] in
theorem alone_update {core : ℕ → CoreInfo Node} (h : ∀ page, Alone me (core page)) {page : ℕ}
    {c : CoreInfo Node} (hc : Alone me c) : ∀ p, Alone me (Function.update core page c p) := by
  intro p
  by_cases hp : p = page
  · subst hp
    rw [Function.update_self]
    exact hc
  · rw [Function.update_of_ne hp]
    exact h p

theorem lockPages_alone (m : LockType) (pages : List ℕ) {core : ℕ → CoreInfo Node}
    (h : ∀ page, Alone me (core page)) :
    ∃ core', lockPages me m pages core = some core' ∧ (∀ page, Alone me (core' page)) ∧
      ∀ page, (core' page).mode =
        if page ∈ pages ∧ (core page).mode = .none then m.toStatus else (core page).mode := by
  induction pages generalizing core with
  | nil => exact ⟨core, rfl, h, by simp⟩
  | cons page pages ih =>
    obtain ⟨c, hc, halone, hmode⟩ := askLock_alone (h page) m
    obtain ⟨core', hcore', halone', hmode'⟩ := ih (alone_update h halone)
    refine ⟨core', ?_, halone', ?_⟩
    · show (askLock me (core page) m).bind _ = some core'
      rw [hc]
      exact hcore'
    · intro p
      rw [hmode' p]
      by_cases hp : p = page
      · subst hp
        have hne := PageLock.toStatus_ne_none m
        rw [Function.update_self, hmode]
        by_cases hnone : (core p).mode = .none <;> simp [hnone, hne]
      · rw [Function.update_of_ne hp]
        simp [hp]

theorem unlockPages_alone {pages : List ℕ} (hnodup : pages.Nodup) {core : ℕ → CoreInfo Node}
    (h : ∀ page, Alone me (core page)) (hmode : ∀ page ∈ pages, (core page).mode ≠ .none) :
    ∃ core', unlockPages me pages core = some core' ∧ (∀ page, Alone me (core' page)) ∧
      (∀ page ∈ pages, (core' page).mode = .none) ∧
      ∀ page, page ∉ pages → core' page = core page := by
  induction pages generalizing core with
  | nil => exact ⟨core, rfl, h, by simp, fun _ _ => rfl⟩
  | cons page pages ih =>
    obtain ⟨hnot, hnodup⟩ := List.nodup_cons.mp hnodup
    obtain ⟨r, hr, halone, hnone⟩ := unlockInternal_alone (h page) (hmode page List.mem_cons_self)
    obtain ⟨core', hcore', halone', hin, hout⟩ := ih hnodup (alone_update h halone) (by
      intro p hp
      have hne : p ≠ page := by
        rintro rfl
        exact hnot hp
      rw [Function.update_of_ne hne]
      exact hmode p (List.mem_cons_of_mem _ hp))
    refine ⟨core', ?_, halone', ?_, ?_⟩
    · show (PageLock.unlockInternal me (core page)).bind _ = some core'
      rw [hr]
      exact hcore'
    · intro p hp
      rcases List.mem_cons.mp hp with rfl | hp
      · rw [hout p hnot, Function.update_self]
        exact hnone
      · exact hin p hp
    · intro p hp
      rw [List.mem_cons, not_or] at hp
      rw [hout p hp.2, Function.update_of_ne hp.1]

theorem nodup_pages (dsm : BitVec 64) (r : Region) : (r.pages dsm).Nodup :=
  List.nodup_range'

/-! ## Calls -/

section Calls

variable {dsm : BitVec 64} {nbPages : ℕ} {st : State Node}

theorem Region.Valid.mem_pages {r : Region} (h : r.Valid dsm nbPages) {page : ℕ} :
    page ∈ r.pages dsm ↔ Touches dsm r.adr r.s page :=
  mem_regionPages_iff_touches h.1 h.2

/-- A lock call returns. The regions stay locked if and only if the call is apart from them. -/
theorem step_lock (h : Inv me dsm nbPages st) {r : Region} (hr : r.Valid dsm nbPages) :
    ∃ st', step me dsm st (.lock r) = some st' ∧ st'.opened = r :: st.opened ∧
      (apart dsm st (.lock r) → Inv me dsm nbPages st') ∧
      (Safe dsm st' → apart dsm st (.lock r)) := by
  obtain ⟨core, hcore, halone, hmode⟩ := lockPages_alone r.kind (r.pages dsm) h.alone
  refine ⟨{ st with core := core, opened := r :: st.opened }, ?_, rfl, ?_, ?_⟩
  · simp only [step, h.safe.1, hcore]
    rfl
  · intro hapart
    refine ⟨halone, ?_, h.safe.1, ?_⟩
    · intro r' hr'
      rcases List.mem_cons.mp hr' with rfl | hr'
      · exact hr
      · exact h.valid r' hr'
    · intro r' hr' page hpage
      change (core page).mode ≠ .none ∧ (r'.kind = .write → (core page).mode = .writing)
      rw [hmode page]
      rcases List.mem_cons.mp hr' with rfl | hr'
      · have hin := hr.mem_pages.mpr hpage
        by_cases hnone : (st.core page).mode = .none
        · rw [if_pos ⟨hin, hnone⟩]
          refine ⟨PageLock.toStatus_ne_none _, ?_⟩
          intro hk
          rw [hk]
          rfl
        · rw [if_neg (fun hc => hnone hc.2)]
          refine ⟨hnone, ?_⟩
          intro hk
          have hne := hapart hk page hin
          cases hc : (st.core page).mode with
          | none => exact absurd hc hnone
          | reading => exact absurd hc hne
          | writing => rfl
      · obtain ⟨hne, hw⟩ := h.safe.2 r' hr' page hpage
        rw [if_neg (fun hc => hne hc.2)]
        exact ⟨hne, hw⟩
  · rintro ⟨-, hheld⟩ hk page hpage hreading
    have hw := (hheld r List.mem_cons_self page (hr.mem_pages.mp hpage)).2 hk
    change (core page).mode = .writing at hw
    rw [hmode page, hreading, if_neg (by simp)] at hw
    cases hw

/-- An unlock call of an open region returns. The other regions stay locked if and only if the call
is apart from them. -/
theorem step_unlock (h : Inv me dsm nbPages st) {r : Region} (hr : r ∈ st.opened) :
    ∃ st', step me dsm st (.unlock r) = some st' ∧ st'.opened = st.opened.erase r ∧
      (apart dsm st (.unlock r) → Inv me dsm nbPages st') ∧
      (Safe dsm st' → apart dsm st (.unlock r)) := by
  have hvalid := h.valid r hr
  obtain ⟨core, hcore, halone, hin, hout⟩ := unlockPages_alone (nodup_pages dsm r) h.alone
    fun page hpage => (h.safe.2 r hr page (hvalid.mem_pages.mp hpage)).1
  refine ⟨{ st with core := core, opened := st.opened.erase r }, ?_, rfl, ?_, ?_⟩
  · simp only [step, h.safe.1, hcore]
    rfl
  · intro hapart
    refine ⟨halone, fun r' hr' => h.valid r' (List.mem_of_mem_erase hr'), h.safe.1, ?_⟩
    intro r' hr' page hpage
    have hr'' := List.mem_of_mem_erase hr'
    have hnot : page ∉ r.pages dsm := by
      intro hpage'
      exact hapart r' hr' page hpage' ((h.valid r' hr'').mem_pages.mpr hpage)
    change (core page).mode ≠ .none ∧ (r'.kind = .write → (core page).mode = .writing)
    rw [hout page hnot]
    exact h.safe.2 r' hr'' page hpage
  · rintro ⟨-, hheld⟩ r' hr' page hpage hpage'
    have hr'' := List.mem_of_mem_erase hr'
    refine (hheld r' hr' page ((h.valid r' hr'').mem_pages.mp hpage')).1 ?_
    exact hin page hpage

/-! ## Sequences of calls -/

theorem safe_iff_meets (h : Inv me dsm nbPages st) {es : List Event}
    (hes : Bracketed dsm nbPages st.opened es) :
    (∀ es₁, es₁ <+: es → ∀ t, Network.run (step me dsm) st es₁ = some t → Safe dsm t) ↔
      Network.Meets (step me dsm) (apart dsm) st es := by
  induction es generalizing st with
  | nil =>
    refine iff_of_true ?_ trivial
    intro es₁ hes₁ t ht
    rw [List.prefix_nil.mp hes₁] at ht
    cases ht
    exact h.safe
  | cons e es ih =>
    -- the call, whether it locks or unlocks
    have hcall : ∃ st', step me dsm st e = some st' ∧ Bracketed dsm nbPages st'.opened es ∧
        (apart dsm st e → Inv me dsm nbPages st') ∧ (Safe dsm st' → apart dsm st e) := by
      cases e with
      | lock r =>
        obtain ⟨st', hst', hopened, hinv, hsafe⟩ := step_lock h hes.1
        exact ⟨st', hst', by rw [hopened]; exact hes.2, hinv, hsafe⟩
      | unlock r =>
        obtain ⟨st', hst', hopened, hinv, hsafe⟩ := step_unlock h hes.1
        exact ⟨st', hst', by rw [hopened]; exact hes.2, hinv, hsafe⟩
    obtain ⟨st', hst', hbracketed, hinv, hsafe⟩ := hcall
    rw [Network.forall_prefix_cons]
    constructor
    · rintro ⟨-, hall⟩
      have hapart := hsafe (hall st' hst' [] List.nil_prefix st' rfl)
      refine ⟨hapart, ?_⟩
      intro s' hs'
      rw [Option.mem_def, hst'] at hs'
      cases hs'
      exact (ih (hinv hapart) hbracketed).mp (hall st' hst')
    · rintro ⟨hapart, hmeets⟩
      refine ⟨h.safe, ?_⟩
      intro s' hs'
      rw [hst'] at hs'
      cases hs'
      exact (ih (hinv hapart) hbracketed).mpr (hmeets st' hst')

omit [DecidableEq Node] in
theorem inv_initState (me : Node) (dsm : BitVec 64) (nbPages : ℕ) :
    Inv me dsm nbPages (initState me) where
  alone := fun _ => ⟨rfl, rfl⟩
  valid := fun _ hr => absurd hr List.not_mem_nil
  safe := ⟨rfl, fun _ hr => absurd hr List.not_mem_nil⟩

/-- Bracketed region locking: in every state that a bracketed sequence of calls reaches, the
assertion in `unlock` has not failed and every page of an open region is locked, for writing if the
region is, if and only if `lock_write` is called only when no page of the region is locked for
reading and regions are unlocked only when they share no page with another open region. -/
theorem region_locks_safe_iff (me : Node) {dsm : BitVec 64} {nbPages : ℕ} {es : List Event}
    (hes : Bracketed dsm nbPages [] es) :
    (∀ es₁, es₁ <+: es → ∀ st, Network.run (step me dsm) (initState me) es₁ = some st →
        Safe dsm st) ↔
      Network.Meets (step me dsm) (apart dsm) (initState me) es :=
  safe_iff_meets (inv_initState me dsm nbPages) hes

end Calls

/-! ## Two objects -/

/-- Sixteen bytes at the start of the memory. -/
def firstObject (kind : LockType) : Region := ⟨kind, 0x10000, 16⟩

/-- Sixteen bytes behind them, on the same page. -/
def secondObject (kind : LockType) : Region := ⟨kind, 0x10010, 16⟩

theorem firstObject_valid (kind : LockType) : (firstObject kind).Valid 0x10000 2 := by
  cases kind <;> exact ⟨⟨by decide, by decide, by decide⟩, by decide⟩

theorem secondObject_valid (kind : LockType) : (secondObject kind).Valid 0x10000 2 := by
  cases kind <;> exact ⟨⟨by decide, by decide, by decide⟩, by decide⟩

/-- One object after the other. -/
def inTurn : List Event :=
  [.lock (firstObject .read), .unlock (firstObject .read), .lock (secondObject .write),
    .unlock (secondObject .write)]

theorem inTurn_bracketed : Bracketed 0x10000 2 [] inTurn :=
  ⟨firstObject_valid .read, List.mem_cons_self, secondObject_valid .write, List.mem_cons_self,
    trivial⟩

theorem region_locks_safe_iff_inTurn :
    ∃ st, Network.run (step (0 : Fin 1) 0x10000) (initState 0) inTurn = some st ∧ Safe 0x10000 st := by
  have h := (region_locks_safe_iff (0 : Fin 1) inTurn_bracketed).mpr (by decide)
  exact ⟨_, rfl, h _ List.prefix_rfl _ rfl⟩

/-- Two objects on one page, locked for reading at the same time and unlocked one after the other.
-/
def together : List Event :=
  [.lock (firstObject .read), .lock (secondObject .read), .unlock (firstObject .read),
    .unlock (secondObject .read)]

/-- The second unlock fails in the assertion. -/
theorem region_locks_abort :
    Bracketed 0x10000 2 [] together ∧
      ∃ st, Network.run (step (0 : Fin 1) 0x10000) (initState 0) together = some st ∧
        st.aborted = true :=
  ⟨⟨firstObject_valid .read, secondObject_valid .read, by decide, by decide, trivial⟩, _, rfl, rfl⟩

end Dsm
