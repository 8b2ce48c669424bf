import Psar.Dsm.System
import Psar.Dsm.Proofs.RegionLockProofs
import Psar.Sigsegv.Proofs.RefinementProofs

/-!
# Proofs: all pages together

What the thread of a node is doing to a page follows from where the thread is. A program that locks
regions that share no pages and unlocks what it has locked never runs into an assertion, and the
locks of its pages are what the page lock of each page makes them.
-/

namespace Dsm.System

open PageLock (LockType)
open Sigsegv (of_running excludeOthers_eq_some)

/-! ## One page at one node -/

section Peer

variable {Node C : Type} [DecidableEq Node] {nodeList : List Node} {n : Node}
  {p : Sigsegv.Peer Node C} {r : Sigsegv.Peer Node C × List (Sigsegv.Msg Node C)} {k : LockType}

omit [DecidableEq Node] in
theorem StatusOk.of_lock {p' : Sigsegv.Peer Node C} (h : StatusOk p) (hlock : p'.lock = p.lock) :
    StatusOk p' := by
  unfold StatusOk
  rw [hlock]
  exact h

omit [DecidableEq Node] in
theorem Calm.running {th : PageLock.Thread Node} (h : Calm th p)
    (hth : th = .idle ∨ th = .returned k) : p.running = true := by
  obtain ⟨hcall, hdata, hlock⟩ := h
  rcases hth with rfl | rfl <;> simp [Sigsegv.Peer.running, hcall, hdata, hlock]

omit [DecidableEq Node] in
/-- The loop goes on only after `ask_lock` has returned with the lock. -/
theorem Locking.calm_of_running (h : Locking k p) (hrun : p.running = true) :
    Calm (.returned k) p := by
  obtain ⟨hcall, hdata, hw⟩ := of_running hrun
  obtain ⟨-, ⟨hask, -⟩ | ⟨-, hth | hth | ⟨hth, -⟩⟩⟩ := h
  · rw [hcall] at hask
    cases hask
  · exact ⟨hcall, hdata, hth⟩
  · simp [hth, Sigsegv.waiting] at hw
  · simp [hth, Sigsegv.waiting] at hw

theorem locking_of_lock (h : Calm .idle p) (hr : Sigsegv.act nodeList n p (.lock k) = some r) :
    Locking k r.1 ∧ r.1.lock = p.lock := by
  obtain ⟨p', hp', rfl⟩ := Option.map_eq_some_iff.mp hr
  obtain ⟨-, rfl⟩ := excludeOthers_eq_some hp'
  exact ⟨⟨h.2.1, Or.inl ⟨rfl, h.2.2⟩⟩, rfl⟩

theorem unlocking_of_release (h : Calm (.returned k) p)
    (hr : Sigsegv.act nodeList n p .release = some r) : Unlocking k r.1 ∧ r.1.lock = p.lock := by
  obtain ⟨p', hp', rfl⟩ := Option.map_eq_some_iff.mp hr
  obtain ⟨-, rfl⟩ := excludeOthers_eq_some hp'
  exact ⟨⟨rfl, h.2.1, h.2.2⟩, rfl⟩

theorem locking_of_askLock (h : Locking k p) (hs : StatusOk p)
    (hr : Sigsegv.act nodeList n p .askLock = some r) : Locking k r.1 ∧ StatusOk r.1 := by
  obtain ⟨r', hr', rfl⟩ := Option.map_eq_some_iff.mp hr
  unfold Sigsegv.askLock at hr'
  split at hr'
  · rename_i k' hcall
    obtain ⟨l, hl, rfl⟩ := Option.map_eq_some_iff.mp hr'
    obtain ⟨hdata, ⟨hk, hidle⟩ | ⟨hnone, -⟩⟩ := h
    · obtain rfl : k' = k := by simpa [hcall] using hk
      have hmode : p.lock.core.mode = .none := by
        unfold StatusOk at hs
        rw [hidle] at hs
        exact (Option.some.inj hs).symm
      suffices h : Asked k' l.1.thread ∧ statusOf l.1.thread = some l.1.core.mode from
        ⟨⟨hdata, Or.inr ⟨rfl, h.1⟩⟩, h.2⟩
      obtain ⟨-, ⟨hne, -⟩ | ⟨-, -, -, rfl⟩ | ⟨-, -, -, rfl, rfl⟩ | ⟨-, -, -, rfl⟩ |
        ⟨-, -, -, rfl⟩⟩ := PageLock.askLock_cases hl
      · exact absurd hmode hne
      · cases k' with
        | read => exact ⟨Or.inl rfl, rfl⟩
        | write => exact ⟨Or.inr (Or.inr ⟨rfl, rfl⟩), rfl⟩
      · exact ⟨Or.inl rfl, rfl⟩
      · exact ⟨Or.inl rfl, rfl⟩
      · exact ⟨Or.inr (Or.inl rfl), rfl⟩
    · rw [hcall] at hnone
      cases hnone
  · cases hr'

/-- The wait in `ask_lock` ends. -/
theorem locking_of_resume (h : Locking k p) (hs : StatusOk p)
    (hr : Sigsegv.act nodeList n p .resume = some r) : Locking k r.1 ∧ StatusOk r.1 := by
  obtain ⟨r', hr', rfl⟩ := Option.map_eq_some_iff.mp hr
  obtain ⟨k', hth, -, rfl⟩ := PageLock.resume_eq_some hr'
  unfold StatusOk at hs
  rw [hth] at hs
  obtain ⟨hdata, ⟨-, hidle⟩ | ⟨hcall, hret | hcond | ⟨hsem, -⟩⟩⟩ := h
  · simp [hth] at hidle
  · simp [hth] at hret
  · obtain rfl : k' = k := by simpa [hth] using hcond
    exact ⟨⟨hdata, Or.inr ⟨hcall, Or.inl rfl⟩⟩, hs⟩
  · simp [hth] at hsem

theorem locking_of_semWake (h : Locking k p) (hs : StatusOk p)
    (hr : Sigsegv.act nodeList n p .semWake = some r) : Locking k r.1 ∧ StatusOk r.1 := by
  obtain ⟨r', hr', rfl⟩ := Option.map_eq_some_iff.mp hr
  obtain ⟨hth, -, rfl⟩ := PageLock.semWake_eq_some hr'
  unfold StatusOk at hs
  rw [hth] at hs
  obtain ⟨hdata, ⟨-, hidle⟩ | ⟨hcall, hret | hcond | ⟨-, rfl⟩⟩⟩ := h
  · simp [hth] at hidle
  · simp [hth] at hret
  · simp [hth] at hcond
  · exact ⟨⟨hdata, Or.inr ⟨hcall, Or.inl rfl⟩⟩, hs⟩

theorem calm_of_unlock (h : Unlocking k p) (hr : Sigsegv.act nodeList n p .unlock = some r) :
    Calm .idle r.1 ∧ StatusOk r.1 := by
  obtain ⟨r', hr', rfl⟩ := Option.map_eq_some_iff.mp hr
  unfold Sigsegv.unlock at hr'
  split at hr'
  · obtain ⟨l, hl, rfl⟩ := Option.map_eq_some_iff.mp hr'
    obtain ⟨k', x, -, hx, rfl⟩ := PageLock.unlock_eq_some hl
    exact ⟨⟨rfl, h.2.1, rfl⟩, congrArg some (PageLock.unlockInternal_frame hx).1.symm⟩
  · cases hr'

/-- Only a page that is locked is faulted on. -/
theorem faulting_of_sigsevHandler {th : PageLock.Thread Node} {writing : Bool} (h : Calm th p)
    (hs : StatusOk p) (hr : Sigsegv.act nodeList n p (.sigsevHandler writing) = some r) :
    th ≠ .idle ∧ r.1.lock = p.lock ∧ (th = .returned k → Faulting k r.1) := by
  obtain ⟨r', hr', rfl⟩ := Option.map_eq_some_iff.mp hr
  unfold Sigsegv.sigsevHandler at hr'
  split at hr'
  · obtain ⟨x, hx, rfl⟩ := Option.map_eq_some_iff.mp hr'
    obtain ⟨-, hmode, -, hcases⟩ := DataTransfer.sigsevHandler_cases hx
    refine ⟨?_, rfl, ?_⟩
    · rintro rfl
      unfold StatusOk at hs
      rw [h.2.2] at hs
      exact hmode (p.mode_eq.trans (Option.some.inj hs).symm)
    · intro hth
      refine ⟨⟨_, rfl⟩, ⟨writing, ?_⟩, h.2.2.trans hth⟩
      rcases hcases with ⟨-, rfl⟩ | ⟨-, -, rfl⟩
      · exact Or.inr rfl
      · exact Or.inl rfl
  · cases hr'

theorem faulting_of_wake (h : Faulting k p) (hr : Sigsegv.act nodeList n p .wake = some r) :
    Faulting k r.1 ∧ r.1.lock = p.lock := by
  obtain ⟨x, hx, rfl⟩ := Option.map_eq_some_iff.mp hr
  obtain ⟨writing, -, -, rfl⟩ := DataTransfer.wake_eq_some hx
  exact ⟨⟨h.1, ⟨writing, Or.inr rfl⟩, h.2.2⟩, rfl⟩

theorem calm_of_sigsevReturn (h : Faulting k p)
    (hr : Sigsegv.act nodeList n p .sigsevReturn = some r) :
    Calm (.returned k) r.1 ∧ r.1.lock = p.lock := by
  obtain ⟨r', hr', rfl⟩ := Option.map_eq_some_iff.mp hr
  unfold Sigsegv.sigsevReturn at hr'
  split at hr'
  · split at hr' <;>
      cases hr' <;>
      exact ⟨⟨rfl, rfl, h.2.2⟩, rfl⟩
  · cases hr'

theorem calm_of_store {th : PageLock.Thread Node} {x : C} (h : Calm th p)
    (hr : Sigsegv.act nodeList n p (.store x) = some r) : Calm th r.1 ∧ r.1.lock = p.lock := by
  obtain ⟨p', hp', rfl⟩ := Option.map_eq_some_iff.mp hr
  obtain ⟨-, -, rfl⟩ := Sigsegv.store_eq_some hp'
  exact ⟨h, rfl⟩

theorem calm_of_load {th : PageLock.Thread Node} (h : Calm th p)
    (hr : Sigsegv.act nodeList n p .load = some r) : Calm th r.1 ∧ r.1.lock = p.lock := by
  obtain ⟨p', hp', rfl⟩ := Option.map_eq_some_iff.mp hr
  obtain ⟨-, -, rfl⟩ := Sigsegv.load_eq_some hp'
  exact ⟨h, rfl⟩

/-- A handler leaves the thread where it is. -/
theorem handle_frame {m : Sigsegv.Msg Node C} (hr : Sigsegv.handle n p m = some r) :
    r.1.call = p.call ∧ r.1.data.thread = p.data.thread ∧ r.1.lock.thread = p.lock.thread ∧
      r.1.lock.core.mode = p.lock.core.mode := by
  cases m with
  | lock m =>
    obtain ⟨l, hl, rfl⟩ := Option.map_eq_some_iff.mp hr
    exact ⟨rfl, rfl, PageLock.handle_thread hl, PageLock.handle_mode hl⟩
  | data m =>
    cases hr
    refine ⟨rfl, ?_, rfl, rfl⟩
    cases m with
    | invalidation d sender => rfl
    | askPage d y =>
      show (DataTransfer.askPageHandler n p.data y).1.thread = _
      rcases DataTransfer.askPageHandler_cases n p.data y with ⟨-, b, -, heq⟩ | ⟨-, heq⟩ <;>
        rw [heq]
    | recvPage d o x =>
      show (DataTransfer.updatePage p.data o x).thread = _
      obtain ⟨b, st, -, heq⟩ := DataTransfer.updatePage_eq p.data o x
      rw [heq]

end Peer

/-! ## Where the thread is -/

section Ctl

variable {dsm : BitVec 64} {opened : List Region} {rg : Region} {done todo : List ℕ} {page : ℕ}
  {c c' : Ctl} {k : LockType}

@[simp] theorem mem_withKind {pages : List ℕ} {x : ℕ × LockType} :
    x ∈ withKind k pages ↔ x.1 ∈ pages ∧ x.2 = k := by
  obtain ⟨q, k'⟩ := x
  simp only [withKind, List.mem_map, Prod.mk.injEq]
  constructor
  · rintro ⟨a, ha, rfl, rfl⟩
    exact ⟨ha, rfl⟩
  · rintro ⟨ha, rfl⟩
    exact ⟨q, ha, rfl, rfl⟩

@[simp] theorem map_fst_withKind (pages : List ℕ) : (withKind k pages).map Prod.fst = pages := by
  simp [withKind, Function.comp_def]

theorem openedPages_perm {r : Region} (hr : r ∈ opened) :
    (openedPages dsm opened).Perm
      (openedPages dsm (opened.erase r) ++ withKind r.kind (r.pages dsm)) :=
  ((List.perm_cons_erase hr).flatMap_right _).trans List.perm_append_comm

theorem place_locking (h : c.place page = .locking k) :
    ∃ r done todo, c.pc = .lockPage r done page todo ∧ r.kind = k := by
  obtain ⟨pc, opened⟩ := c
  cases pc with
  | lockPage r done q todo =>
    by_cases hq : q = page
    · subst hq
      exact ⟨r, done, todo, rfl, by simpa [Ctl.place] using h⟩
    · simp [Ctl.place, hq] at h
  | unlockPage r q todo => by_cases hq : q = page <;> simp [Ctl.place, hq] at h
  | fault q => by_cases hq : q = page <;> simp [Ctl.place, hq] at h
  | _ => cases h

theorem place_unlocking (h : c.place page = .unlocking k) :
    ∃ r todo, c.pc = .unlockPage r page todo ∧ r.kind = k := by
  obtain ⟨pc, opened⟩ := c
  cases pc with
  | unlockPage r q todo =>
    by_cases hq : q = page
    · subst hq
      exact ⟨r, todo, rfl, by simpa [Ctl.place] using h⟩
    · simp [Ctl.place, hq] at h
  | lockPage r done q todo => by_cases hq : q = page <;> simp [Ctl.place, hq] at h
  | fault q => by_cases hq : q = page <;> simp [Ctl.place, hq] at h
  | _ => cases h

theorem place_faulting (h : c.place page = .faulting) : c.pc = .fault page := by
  obtain ⟨pc, opened⟩ := c
  cases pc with
  | fault q =>
    by_cases hq : q = page
    · rw [hq]
    · simp [Ctl.place, hq] at h
  | lockPage r done q todo => by_cases hq : q = page <;> simp [Ctl.place, hq] at h
  | unlockPage r q todo => by_cases hq : q = page <;> simp [Ctl.place, hq] at h
  | _ => cases h

/-- Outside `page`, the thread is doing the same as before. -/
def SameElse (dsm : BitVec 64) (c c' : Ctl) (page : ℕ) : Prop :=
  ∀ q, q ≠ page → c'.place q = c.place q ∧ ∀ k, (q, k) ∈ c'.locked dsm ↔ (q, k) ∈ c.locked dsm

theorem SameElse.refl (dsm : BitVec 64) (c : Ctl) (page : ℕ) : SameElse dsm c c page :=
  fun _ _ => ⟨rfl, fun _ => Iff.rfl⟩

variable {Node C : Type} [DecidableEq Node] {p p' : Sigsegv.Peer Node C}

omit [DecidableEq Node] in
theorem PageInv.of_same (h : PageInv dsm c page p) (hplace : c'.place page = c.place page)
    (hlocked : ∀ k, (page, k) ∈ c'.locked dsm ↔ (page, k) ∈ c.locked dsm) :
    PageInv dsm c' page p := by
  refine ⟨h.status, ?_⟩
  have hp := h.placed
  rw [hplace]
  simp only [hlocked]
  exact hp

omit [DecidableEq Node] in
theorem PageInv.of_frame (h : PageInv dsm c page p) (hcall : p'.call = p.call)
    (hdata : p'.data.thread = p.data.thread) (hth : p'.lock.thread = p.lock.thread)
    (hmode : p'.lock.core.mode = p.lock.core.mode) : PageInv dsm c page p' := by
  refine ⟨?_, ?_⟩
  · have hs := h.status
    unfold StatusOk at hs ⊢
    rw [hth, hmode, hs]
  · have hp := h.placed
    simp only [Calm, Locking, Unlocking, Faulting, hcall, hdata, hth] at hp ⊢
    exact hp

/-- A page that is locked is locked in one way. -/
theorem CtlInv.kind_unique (h : CtlInv dsm c) {k' : LockType} (hk : (page, k) ∈ c.locked dsm)
    (hk' : (page, k') ∈ c.locked dsm) : k = k' := by
  have hnodup := (List.nodup_append.mp h.nodup).1
  have := List.inj_on_of_nodup_map hnodup hk hk' rfl
  exact congrArg Prod.snd this

/-- A page that is going to be locked is not locked. -/
theorem CtlInv.not_locked (h : CtlInv dsm c) (hq : page ∈ c.pending) :
    (page, k) ∉ c.locked dsm := by
  intro hk
  exact (List.nodup_append.mp h.nodup).2.2 page (List.mem_map_of_mem hk) page hq rfl

end Ctl

/-! ## A step on a page -/

section Move

variable {Node C : Type} [DecidableEq Node] {nodeList : List Node} {n : Node} {dsm : BitVec 64}
  {c c' : Ctl} {page : ℕ} {p : Sigsegv.Peer Node C}
  {r : Sigsegv.Peer Node C × List (Sigsegv.Msg Node C)}

/-- The invariants of the thread and of the page after a step on it, and the other pages. -/
def Moved (dsm : BitVec 64) (c c' : Ctl) (page : ℕ) (p' : Sigsegv.Peer Node C) : Prop :=
  CtlInv dsm c' ∧ PageInv dsm c' page p' ∧ SameElse dsm c c' page

theorem moved_lock {k : LockType} (hc : CtlInv dsm c) (hp : PageInv dsm c page p)
    (hmove : c.pageMove page (.lock k : Sigsegv.Action C) = some c')
    (hr : Sigsegv.act nodeList n p (.lock k) = some r) : Moved dsm c c' page r.1 := by
  obtain ⟨pc, opened⟩ := c
  cases pc with
  | lock rg done todo =>
    cases todo with
    | nil => cases hmove
    | cons q todo =>
      simp only [Ctl.pageMove] at hmove
      split at hmove
      · rename_i hcond
        obtain ⟨rfl, rfl⟩ := hcond
        obtain rfl := Option.some.inj hmove
        have hidle : Calm .idle p := hp.placed.2 fun k => hc.not_locked List.mem_cons_self
        obtain ⟨hl, hlock⟩ := locking_of_lock hidle hr
        refine ⟨⟨hc.nodup, hc.whole⟩, ⟨hp.status.of_lock hlock, ?_⟩, ?_⟩
        · simpa [Ctl.place] using hl
        · intro q' hq'
          exact ⟨by simp [Ctl.place, Ne.symm hq'], fun _ => Iff.rfl⟩
      · cases hmove
  | _ => cases hmove

theorem moved_release (hc : CtlInv dsm c) (hp : PageInv dsm c page p)
    (hmove : c.pageMove page (.release : Sigsegv.Action C) = some c')
    (hr : Sigsegv.act nodeList n p .release = some r) : Moved dsm c c' page r.1 := by
  obtain ⟨pc, opened⟩ := c
  cases pc with
  | unlock rg todo =>
    cases todo with
    | nil => cases hmove
    | cons q todo =>
      simp only [Ctl.pageMove] at hmove
      split at hmove
      · rename_i hcond
        subst hcond
        obtain rfl := Option.some.inj hmove
        have hcalm := hp.placed.1 rg.kind (by simp [Ctl.locked])
        obtain ⟨hu, hlock⟩ := unlocking_of_release hcalm hr
        refine ⟨⟨?_, trivial⟩, ⟨hp.status.of_lock hlock, ?_⟩, ?_⟩
        · -- the page moves from the locked ones to the pending one
          have hnodup := hc.nodup
          simp only [Ctl.locked, Ctl.pending, List.map_append, map_fst_withKind,
            List.append_nil] at hnodup ⊢
          refine hnodup.perm ?_
          rw [List.append_assoc]
          exact (List.perm_append_singleton q todo).symm.append_left _
        · simpa [Ctl.place] using hu
        · intro q' hq'
          exact ⟨by simp [Ctl.place, Ne.symm hq'], fun k => by simp [Ctl.locked, hq']⟩
      · cases hmove
  | _ => cases hmove

theorem moved_unlock (hc : CtlInv dsm c) (hp : PageInv dsm c page p)
    (hmove : c.pageMove page (.unlock : Sigsegv.Action C) = some c')
    (hr : Sigsegv.act nodeList n p .unlock = some r) : Moved dsm c c' page r.1 := by
  obtain ⟨pc, opened⟩ := c
  cases pc with
  | unlockPage rg q todo =>
    simp only [Ctl.pageMove] at hmove
    split at hmove
    · rename_i hcond
      subst hcond
      obtain rfl := Option.some.inj hmove
      have hu : Unlocking rg.kind p := by simpa [Ctl.place] using hp.placed
      obtain ⟨hcalm, hs⟩ := calm_of_unlock hu hr
      have hnot : ∀ k, (q, k) ∉ Ctl.locked dsm ⟨.unlock rg todo, opened⟩ :=
        fun k => hc.not_locked List.mem_cons_self
      refine ⟨⟨?_, trivial⟩, ⟨hs, fun k hk => absurd hk (hnot k), fun _ => hcalm⟩, ?_⟩
      · exact List.nodup_append.mpr ⟨(List.nodup_append.mp hc.nodup).1, List.nodup_nil,
          fun _ _ _ hb => absurd hb List.not_mem_nil⟩
      · intro q' hq'
        exact ⟨by simp [Ctl.place, Ne.symm hq'], fun _ => Iff.rfl⟩
    · cases hmove
  | _ => cases hmove

/-- The steps in the body of the loop with `ask_lock` leave the thread in it. -/
theorem moved_lockPage {a : Sigsegv.Action C} (hc : CtlInv dsm c) (hp : PageInv dsm c page p)
    (ha : a = .askLock ∨ a = .resume ∨ a = .semWake) (hmove : c.pageMove page a = some c')
    (hr : Sigsegv.act nodeList n p a = some r) : Moved dsm c c' page r.1 := by
  obtain ⟨pc, opened⟩ := c
  cases pc with
  | lockPage rg done q todo =>
    obtain ⟨rfl, rfl⟩ : q = page ∧ c' = ⟨.lockPage rg done q todo, opened⟩ := by
      rcases ha with rfl | rfl | rfl <;> simpa [Ctl.pageMove, eq_comm] using hmove
    have hl : Locking rg.kind p := by simpa [Ctl.place] using hp.placed
    obtain ⟨hl', hs⟩ : Locking rg.kind r.1 ∧ StatusOk r.1 := by
      rcases ha with rfl | rfl | rfl
      · exact locking_of_askLock hl hp.status hr
      · exact locking_of_resume hl hp.status hr
      · exact locking_of_semWake hl hp.status hr
    exact ⟨hc, ⟨hs, by simpa [Ctl.place] using hl'⟩, SameElse.refl _ _ _⟩
  | _ => rcases ha with rfl | rfl | rfl <;> cases hmove

theorem moved_sigsevHandler {writing : Bool} (hc : CtlInv dsm c) (hp : PageInv dsm c page p)
    (hmove : c.pageMove page (.sigsevHandler writing : Sigsegv.Action C) = some c')
    (hr : Sigsegv.act nodeList n p (.sigsevHandler writing) = some r) :
    Moved dsm c c' page r.1 := by
  obtain ⟨pc, opened⟩ := c
  simp only [Ctl.pageMove] at hmove
  split at hmove
  · rename_i hpc
    obtain rfl : pc = .running := hpc
    obtain rfl := Option.some.inj hmove
    obtain ⟨hlocked, hfree⟩ := hp.placed
    have hex : ∃ k, (page, k) ∈ Ctl.locked dsm ⟨.running, opened⟩ := by
      by_contra hno
      exact (faulting_of_sigsevHandler (k := .read) (hfree fun k hk => hno ⟨k, hk⟩) hp.status hr).1
        rfl
    obtain ⟨k, hk⟩ := hex
    have hlock := (faulting_of_sigsevHandler (k := k) (hlocked k hk) hp.status hr).2.1
    refine ⟨⟨hc.nodup, ⟨k, hk⟩⟩, ⟨hp.status.of_lock hlock, ?_⟩, ?_⟩
    · have hgoal : ∀ k', (page, k') ∈ Ctl.locked dsm ⟨.fault page, opened⟩ → Faulting k' r.1 :=
        fun k' hk' => (faulting_of_sigsevHandler (hlocked k' hk') hp.status hr).2.2 rfl
      simpa [Ctl.place] using hgoal
    · intro q' hq'
      exact ⟨by simp [Ctl.place, Ne.symm hq'], fun _ => Iff.rfl⟩
  · cases hmove

theorem moved_wake (hc : CtlInv dsm c) (hp : PageInv dsm c page p)
    (hmove : c.pageMove page (.wake : Sigsegv.Action C) = some c')
    (hr : Sigsegv.act nodeList n p .wake = some r) : Moved dsm c c' page r.1 := by
  obtain ⟨pc, opened⟩ := c
  simp only [Ctl.pageMove] at hmove
  split at hmove
  · rename_i hpc
    obtain rfl : pc = .fault page := hpc
    obtain rfl := Option.some.inj hmove
    have hf : ∀ k, (page, k) ∈ Ctl.locked dsm ⟨.fault page, opened⟩ → Faulting k p := by
      simpa [Ctl.place] using hp.placed
    obtain ⟨k, hk⟩ := hc.whole
    refine ⟨hc, ⟨hp.status.of_lock (faulting_of_wake (hf k hk) hr).2, ?_⟩, SameElse.refl _ _ _⟩
    have hgoal : ∀ k', (page, k') ∈ Ctl.locked dsm ⟨.fault page, opened⟩ → Faulting k' r.1 :=
      fun k' hk' => (faulting_of_wake (hf k' hk') hr).1
    simpa [Ctl.place] using hgoal
  · cases hmove

theorem moved_sigsevReturn (hc : CtlInv dsm c) (hp : PageInv dsm c page p)
    (hmove : c.pageMove page (.sigsevReturn : Sigsegv.Action C) = some c')
    (hr : Sigsegv.act nodeList n p .sigsevReturn = some r) : Moved dsm c c' page r.1 := by
  obtain ⟨pc, opened⟩ := c
  simp only [Ctl.pageMove] at hmove
  split at hmove
  · rename_i hpc
    obtain rfl : pc = .fault page := hpc
    obtain rfl := Option.some.inj hmove
    have hf : ∀ k, (page, k) ∈ Ctl.locked dsm ⟨.fault page, opened⟩ → Faulting k p := by
      simpa [Ctl.place] using hp.placed
    obtain ⟨k, hk⟩ := hc.whole
    refine ⟨⟨hc.nodup, trivial⟩,
      ⟨hp.status.of_lock (calm_of_sigsevReturn (hf k hk) hr).2,
        fun k' hk' => (calm_of_sigsevReturn (hf k' hk') hr).1, fun hno => absurd hk (hno k)⟩, ?_⟩
    intro q' hq'
    exact ⟨by simp [Ctl.place, Ne.symm hq'], fun _ => Iff.rfl⟩
  · cases hmove

/-- An access that the protection lets through. -/
theorem moved_access {a : Sigsegv.Action C} (hc : CtlInv dsm c) (hp : PageInv dsm c page p)
    (ha : a = .load ∨ ∃ x, a = .store x) (hmove : c.pageMove page a = some c')
    (hr : Sigsegv.act nodeList n p a = some r) : Moved dsm c c' page r.1 := by
  obtain ⟨pc, opened⟩ := c
  obtain ⟨rfl, rfl⟩ : pc = .running ∧ c' = ⟨.running, opened⟩ := by
    rcases ha with rfl | ⟨x, rfl⟩ <;>
      simp only [Ctl.pageMove, Option.ite_none_right_eq_some] at hmove <;>
      obtain ⟨rfl, h⟩ := hmove <;>
      exact ⟨rfl, (Option.some.inj h).symm⟩
  have hcalm : ∀ {th}, Calm th p → Calm th r.1 ∧ r.1.lock = p.lock := by
    rcases ha with rfl | ⟨x, rfl⟩
    · exact fun h => calm_of_load h hr
    · exact fun h => calm_of_store h hr
  have hlock : r.1.lock = p.lock := by
    by_cases hex : ∃ k, (page, k) ∈ Ctl.locked dsm ⟨.running, opened⟩
    · obtain ⟨k, hk⟩ := hex
      exact (hcalm (hp.placed.1 k hk)).2
    · exact (hcalm (hp.placed.2 fun k hk => hex ⟨k, hk⟩)).2
  exact ⟨hc, ⟨hp.status.of_lock hlock, fun k hk => (hcalm (hp.placed.1 k hk)).1,
    fun hno => (hcalm (hp.placed.2 hno)).1⟩, SameElse.refl _ _ _⟩

theorem moved_page {a : Sigsegv.Action C} (hc : CtlInv dsm c) (hp : PageInv dsm c page p)
    (hmove : c.pageMove page a = some c') (hr : Sigsegv.act nodeList n p a = some r) :
    Moved dsm c c' page r.1 := by
  cases a with
  | lock k => exact moved_lock hc hp hmove hr
  | askLock => exact moved_lockPage hc hp (Or.inl rfl) hmove hr
  | resume => exact moved_lockPage hc hp (Or.inr (Or.inl rfl)) hmove hr
  | semWake => exact moved_lockPage hc hp (Or.inr (Or.inr rfl)) hmove hr
  | release => exact moved_release hc hp hmove hr
  | unlock => exact moved_unlock hc hp hmove hr
  | sigsevHandler writing => exact moved_sigsevHandler hc hp hmove hr
  | wake => exact moved_wake hc hp hmove hr
  | sigsevReturn => exact moved_sigsevReturn hc hp hmove hr
  | store x => exact moved_access hc hp (Or.inr ⟨x, rfl⟩) hmove hr
  | load => exact moved_access hc hp (Or.inl rfl) hmove hr

end Move

/-! ## Steps -/

section Step

variable {Node C : Type} [DecidableEq Node] [DecidableEq C] {nodeList : Node → List Node}
  {dsm : BitVec 64} {s s' : State Node C} {e : Event Node C}

omit [DecidableEq C] in
/-- A step of the thread of `n` that leaves all pages as they are. -/
theorem Inv.setCtl (h : Inv dsm s) {n : Node} {c : Ctl} (hc : CtlInv dsm c)
    (hp : ∀ page, PageInv dsm c page ((s.page page).node n)) : Inv dsm (s.setCtl n c) where
  ctl := fun m => by
    by_cases hm : m = n
    · subst hm
      simpa [State.setCtl] using hc
    · simpa [State.setCtl, hm] using h.ctl m
  page := fun m page => by
    by_cases hm : m = n
    · subst hm
      simpa [State.setCtl] using hp page
    · simpa [State.setCtl, hm] using h.page m page

theorem inv_lockRegion (h : Inv dsm s) {n : Node} {r : Region}
    (hok : bracketed dsm s (.lockRegion n r) = true)
    (hstep : step nodeList dsm s (.lockRegion n r) = some s') : Inv dsm s' := by
  have hc := h.ctl n
  have hp := h.page n
  simp only [step] at hstep
  simp only [bracketed, decide_eq_true_eq] at hok
  split at hstep
  · rename_i hpc
    obtain rfl := Option.some.inj hstep
    generalize s.ctl n = c at hc hp hok hpc ⊢
    obtain ⟨pc, opened⟩ := c
    obtain rfl : pc = .running := hpc
    refine h.setCtl ⟨?_, rfl⟩ fun page => (hp page).of_same rfl fun _ => Iff.rfl
    refine List.nodup_append.mpr ⟨(List.nodup_append.mp hc.nodup).1, nodup_pages dsm r, ?_⟩
    rintro a ha b hb rfl
    obtain ⟨x, hx, rfl⟩ := List.mem_map.mp ha
    exact hok x hx hb
  · cases hstep

theorem inv_unlockRegion (h : Inv dsm s) {n : Node} {r : Region}
    (hok : bracketed dsm s (.unlockRegion n r) = true)
    (hstep : step nodeList dsm s (.unlockRegion n r) = some s') : Inv dsm s' := by
  have hc := h.ctl n
  have hp := h.page n
  simp only [step] at hstep
  simp only [bracketed, decide_eq_true_eq] at hok
  split at hstep
  · rename_i hpc
    obtain rfl := Option.some.inj hstep
    generalize s.ctl n = c at hc hp hok hpc ⊢
    obtain ⟨pc, opened⟩ := c
    obtain rfl : pc = .running := hpc
    -- the pages of the region were those of an open region
    have hperm : (Ctl.locked dsm ⟨.running, opened⟩).Perm
        (Ctl.locked dsm ⟨.unlock r (r.pages dsm), opened.erase r⟩) := by
      simpa [Ctl.locked] using openedPages_perm hok
    refine h.setCtl ⟨?_, trivial⟩ fun page => (hp page).of_same rfl fun k => hperm.symm.mem_iff
    exact hc.nodup.perm ((hperm.map _).append_right _)
  · cases hstep

theorem inv_next (h : Inv dsm s) {n : Node} (hstep : step nodeList dsm s (.next n) = some s') :
    Inv dsm s' := by
  have hc := h.ctl n
  have hp := h.page n
  simp only [step] at hstep
  generalize s.ctl n = c at hc hp hstep
  obtain ⟨pc, opened⟩ := c
  cases pc with
  | lockPage r done q todo =>
    simp only at hstep
    split at hstep
    · rename_i hrun
      obtain rfl := Option.some.inj hstep
      have hl : Locking r.kind ((s.page q).node n) := by simpa [Ctl.place] using (hp q).placed
      have hmem : ∀ q' k, (q', k) ∈ Ctl.locked dsm ⟨.lock r (done ++ [q]) todo, opened⟩ ↔
          (q', k) ∈ Ctl.locked dsm ⟨.lockPage r done q todo, opened⟩ ∨ q' = q ∧ k = r.kind := by
        intro q' k
        simp only [Ctl.locked, List.mem_append, mem_withKind, List.mem_singleton]
        tauto
      have hnot : ∀ k, (q, k) ∉ Ctl.locked dsm ⟨.lockPage r done q todo, opened⟩ :=
        fun k => hc.not_locked List.mem_cons_self
      refine h.setCtl ⟨?_, ?_⟩ fun page => ?_
      · have hnodup := hc.nodup
        simpa [Ctl.locked, Ctl.pending] using hnodup
      · simpa using hc.whole
      · by_cases hq : page = q
        · subst hq
          refine ⟨(hp page).status, fun k hk => ?_, fun hno => ?_⟩
          · obtain ⟨-, rfl⟩ := ((hmem page k).mp hk).resolve_left (hnot k)
            exact hl.calm_of_running hrun
          · exact absurd ((hmem page r.kind).mpr (Or.inr ⟨rfl, rfl⟩)) (hno r.kind)
        · refine (hp page).of_same (by simp [Ctl.place, Ne.symm hq]) fun k => ?_
          rw [hmem]
          simp [hq]
    · cases hstep
  | _ => cases hstep

theorem inv_ret (h : Inv dsm s) {n : Node} (hstep : step nodeList dsm s (.ret n) = some s') :
    Inv dsm s' := by
  have hc := h.ctl n
  have hp := h.page n
  simp only [step] at hstep
  generalize s.ctl n = c at hc hp hstep
  obtain ⟨pc, opened⟩ := c
  cases pc with
  | lock r done todo =>
    cases todo with
    | nil =>
      obtain rfl := Option.some.inj hstep
      have hdone : done = r.pages dsm := by simpa using hc.whole
      have hperm : (Ctl.locked dsm ⟨.lock r done [], opened⟩).Perm
          (Ctl.locked dsm ⟨.running, r :: opened⟩) := by
        simp only [Ctl.locked, openedPages, hdone, List.flatMap_cons, List.append_nil]
        exact List.perm_append_comm
      refine h.setCtl ⟨?_, trivial⟩ fun page => (hp page).of_same rfl fun k => hperm.symm.mem_iff
      exact hc.nodup.perm ((hperm.map _).append_right _)
    | cons q todo => cases hstep
  | unlock r todo =>
    cases todo with
    | nil =>
      obtain rfl := Option.some.inj hstep
      exact h.setCtl ⟨hc.nodup, trivial⟩ fun page => (hp page).of_same rfl fun _ => Iff.rfl
    | cons q todo => cases hstep
  | _ => cases hstep

/-- The nodes of a page after a step on it. -/
theorem inv_page (h : Inv dsm s) {n : Node} {page : ℕ} {a : Sigsegv.Action C}
    (hstep : step nodeList dsm s (.page n page a) = some s') : Inv dsm s' := by
  obtain ⟨c, hmove, hstep⟩ := Option.bind_eq_some_iff.mp hstep
  obtain ⟨t, ht, rfl⟩ := Option.map_eq_some_iff.mp hstep
  obtain ⟨r, hr, rfl⟩ := Option.map_eq_some_iff.mp ht
  obtain ⟨hc, hp, hsame⟩ := moved_page (h.ctl n) (h.page n page) hmove hr
  refine ⟨fun m => ?_, fun m q => ?_⟩
  · by_cases hm : m = n
    · subst hm
      simpa [State.setCtl, State.setPage] using hc
    · simpa [State.setCtl, State.setPage, hm] using h.ctl m
  · by_cases hm : m = n
    · subst hm
      by_cases hq : q = page
      · subst hq
        simpa [State.setCtl, State.setPage] using hp
      · have hold := (h.page m q).of_same (hsame q hq).1 (hsame q hq).2
        simpa [State.setCtl, State.setPage, hq] using hold
    · have hold := h.page m q
      by_cases hq : q = page
      · subst hq
        simpa [State.setCtl, State.setPage, hm, Network.fire_node_ne _ _ _ hm] using hold
      · simpa [State.setCtl, State.setPage, hm, hq] using hold

theorem inv_deliver (h : Inv dsm s) {page : ℕ} {m : Sigsegv.Msg Node C}
    (hstep : step nodeList dsm s (.deliver page m) = some s') : Inv dsm s' := by
  obtain ⟨t, ht, rfl⟩ := Option.map_eq_some_iff.mp hstep
  refine ⟨h.ctl, fun j q => ?_⟩
  have hold := h.page j q
  by_cases hq : q = page
  · subst hq
    rcases Network.step_cases ht with ⟨i, a, r, he, -, -⟩ | ⟨m, r, -, -, hr, rfl⟩
    · cases he
    · simp only [State.setPage, Function.update_self]
      obtain ⟨hcall, hdata, hth, hmode⟩ := handle_frame hr
      by_cases hj : j = (Sigsegv.protocol nodeList).dest m
      · subst hj
        rw [Network.fire_node_self]
        exact hold.of_frame hcall hdata hth hmode
      · rw [Network.fire_node_ne _ _ _ hj]
        exact hold
  · simpa [State.setPage, hq] using hold

theorem inv_step (h : Inv dsm s) (hok : bracketed dsm s e = true)
    (hstep : step nodeList dsm s e = some s') : Inv dsm s' := by
  cases e with
  | lockRegion n r => exact inv_lockRegion h hok hstep
  | unlockRegion n r => exact inv_unlockRegion h hok hstep
  | page n page a => exact inv_page h hstep
  | next n => exact inv_next h hstep
  | ret n => exact inv_ret h hstep
  | deliver page m => exact inv_deliver h hstep

omit [DecidableEq C] in
theorem inv_initState (o : Node) (content : ℕ → Node → C) :
    Inv dsm (initState o content) where
  ctl := fun _ => ⟨List.nodup_nil, trivial⟩
  page := fun _ _ => ⟨rfl, fun _ hk => absurd hk List.not_mem_nil, fun _ => ⟨rfl, rfl, rfl⟩⟩

theorem inv_run {o : Node} {content : ℕ → Node → C} {es : List (Event Node C)}
    (hrun : Network.run (step nodeList dsm) (initState o content) es = some s)
    (hok : Network.Meets (step nodeList dsm) (fun s e => bracketed dsm s e = true)
      (initState o content) es) : Inv dsm s :=
  Network.run_invariant (fun _ _ _ h hok hstep => inv_step h hok hstep)
    (inv_initState o content) hok hrun

end Step

end Dsm.System
