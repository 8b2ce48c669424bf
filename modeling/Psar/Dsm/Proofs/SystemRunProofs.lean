import Psar.Dsm.Proofs.SystemProofs

/-!
# Proofs: programs that lock regions

What a program can rely on when it locks regions and accesses their pages: it does not end in an
assertion, readers and writers of a page are kept apart, a load finds the last store, and no nodes
wait for each other in a circle when regions are locked in increasing order.
-/

namespace Dsm.System

open PageLock (LockType)

variable {Node C : Type} [DecidableEq Node] [DecidableEq C] {nodeList : Node → List Node}
  {dsm : BitVec 64} {s s' : State Node C} {e : Event Node C}

/-! ## The calls go on -/

section Progress

variable {n : Node} {page : ℕ} {p : Sigsegv.Peer Node C} {k : LockType}

theorem isSome_page {c : Ctl} {a : Sigsegv.Action C} (hmove : (s.ctl n).pageMove page a = some c)
    (ha : (Sigsegv.act (nodeList n) n ((s.page page).node n) a).isSome = true) :
    (step nodeList dsm s (.page n page a)).isSome = true := by
  obtain ⟨r, hr⟩ := Option.isSome_iff_exists.mp ha
  have ht := Network.step_act (P := Sigsegv.protocol nodeList) (s := s.page page) (i := n) hr
  simp only [step, hmove, Option.bind_some, Option.isSome_map]
  exact Option.isSome_iff_exists.mpr ⟨_, ht⟩

theorem canMove_page (page : ℕ) {c : Ctl} {a : Sigsegv.Action C}
    (hmove : (s.ctl n).pageMove page a = some c)
    (ha : (Sigsegv.act (nodeList n) n ((s.page page).node n) a).isSome = true) :
    CanMove nodeList dsm s n :=
  ⟨.page n page a, rfl, isSome_page hmove ha⟩

omit [DecidableEq Node] [DecidableEq C] in
/-- `unlock_internal` fails only when the page is not locked. -/
theorem mode_ne_none (hs : StatusOk p) (hth : p.lock.thread = .returned k) :
    p.lock.core.mode ≠ .none := by
  unfold StatusOk at hs
  rw [hth] at hs
  rw [← Option.some.inj hs]
  cases k <;> simp [LockType.toStatus]

omit [DecidableEq C] in
theorem isSome_unlock {l : List Node} (h : Unlocking k p) (hs : StatusOk p) :
    (Sigsegv.act l n p .unlock).isSome = true := by
  obtain ⟨hcall, -, hth⟩ := h
  have hsome : (PageLock.unlockInternal n p.lock.core).isSome = true := by
    have hmode := mode_ne_none hs hth
    unfold PageLock.unlockInternal
    split
    · split
      · rfl
      · split <;> rfl
    · split <;> rfl
    · rename_i hnone
      exact absurd hnone hmode
  simp [Sigsegv.act, Sigsegv.unlock, hcall, PageLock.unlock, hth, hsome]

omit [DecidableEq C] in
theorem isSome_askLock {l : List Node} (hcall : p.call = some (.askLock k))
    (hth : p.lock.thread = .idle) : (Sigsegv.act l n p .askLock).isSome = true := by
  simp only [Sigsegv.act, Sigsegv.askLock, hcall, PageLock.askLock, hth, Option.isSome_map]
  split <;> rfl

omit [DecidableEq C] in
theorem isSome_sigsevReturn {l : List Node} {lockStatus : PageLock.LockStatus} {writing : Bool}
    (hcall : p.call = some (.sigsegv lockStatus)) (hth : p.data.thread = .synced writing) :
    (Sigsegv.act l n p .sigsevReturn).isSome = true := by
  simp only [Sigsegv.act, Sigsegv.sigsevReturn, hcall, hth, Option.isSome_map]
  split <;> rfl

omit [DecidableEq Node] [DecidableEq C] in
theorem isSome_excludeOthers {th : PageLock.Thread Node} (h : Calm th p)
    (hth : th = .idle ∨ th = .returned k) (c : Sigsegv.Call) :
    (Sigsegv.excludeOthers p c).isSome = true := by
  simp [Sigsegv.excludeOthers, h.running hth]

/-- In the loop with `ask_lock`: the thread goes on unless it waits. -/
theorem progress_lockPage (h : Inv dsm s) {r : Region} {done todo : List ℕ}
    (hpc : (s.ctl n).pc = .lockPage r done page todo) : Waits s n ∨ CanMove nodeList dsm s n := by
  have hp := h.page n page
  have hl : Locking r.kind ((s.page page).node n) := by
    have hplaced := hp.placed
    simpa [Ctl.place, hpc] using hplaced
  obtain ⟨hdata, ⟨hcall, hth⟩ | ⟨hcall, hret | hcond | ⟨hsem, -⟩⟩⟩ := hl
  · exact Or.inr (canMove_page page (c := s.ctl n) (a := .askLock) (by simp [Ctl.pageMove, hpc])
      (isSome_askLock hcall hth))
  · refine Or.inr ⟨.next n, rfl, ?_⟩
    have hrun : ((s.page page).node n).running = true :=
      Calm.running (k := r.kind) ⟨hcall, hdata, hret⟩ (Or.inr rfl)
    simp [step, hpc, hrun]
  · exact Or.inl (Or.inl ⟨page, by simp [WaitsAt, hcond, Sigsegv.waiting]⟩)
  · exact Or.inl (Or.inl ⟨page, by simp [WaitsAt, hsem, Sigsegv.waiting]⟩)

/-- In `sigsev_handler`: the thread goes on unless it waits for the page. -/
theorem progress_fault (h : Inv dsm s) (hpc : (s.ctl n).pc = .fault page) :
    Waits s n ∨ CanMove nodeList dsm s n := by
  have hp := h.page n page
  obtain ⟨k, hk⟩ : ∃ k, (page, k) ∈ (s.ctl n).locked dsm := by
    have hwhole := (h.ctl n).whole
    rwa [hpc] at hwhole
  have hplaced := hp.placed
  simp only [Ctl.place, hpc, if_true] at hplaced
  obtain ⟨⟨lockStatus, hcall⟩, ⟨writing, hth | hth⟩, -⟩ := hplaced k hk
  · exact Or.inl (Or.inr ⟨page, writing, hth⟩)
  · exact Or.inr (canMove_page page (a := .sigsevReturn) (by simp [Ctl.pageMove, hpc]; rfl)
      (isSome_sigsevReturn hcall hth))

theorem progress (h : Inv dsm s) (hpc : (s.ctl n).pc ≠ .running) :
    Waits s n ∨ CanMove nodeList dsm s n := by
  cases hc : (s.ctl n).pc with
  | running => exact absurd hc hpc
  | lock r done todo =>
    right
    cases todo with
    | nil => exact ⟨.ret n, rfl, by simp [step, hc]⟩
    | cons q todo =>
      have hplaced := (h.page n q).placed
      simp only [Ctl.place, hc] at hplaced
      have hcalm := hplaced.2 fun k => (h.ctl n).not_locked (by simp [Ctl.pending, hc])
      refine canMove_page q (a := .lock r.kind) (by simp [Ctl.pageMove, hc]; rfl) ?_
      simpa [Sigsegv.act] using isSome_excludeOthers (k := r.kind) hcalm (Or.inl rfl) _
  | lockPage r done page todo => exact progress_lockPage h hc
  | unlock r todo =>
    right
    cases todo with
    | nil => exact ⟨.ret n, rfl, by simp [step, hc]⟩
    | cons q todo =>
      have hplaced := (h.page n q).placed
      simp only [Ctl.place, hc] at hplaced
      have hcalm := hplaced.1 r.kind (by simp [Ctl.locked, hc])
      refine canMove_page q (a := .release) (by simp [Ctl.pageMove, hc]; rfl) ?_
      simpa [Sigsegv.act] using isSome_excludeOthers hcalm (Or.inr rfl) _
  | unlockPage r page todo =>
    have hu : Unlocking r.kind ((s.page page).node n) := by
      have hplaced := (h.page n page).placed
      simpa [Ctl.place, hc] using hplaced
    exact Or.inr (canMove_page page (a := .unlock) (by simp [Ctl.pageMove, hc]; rfl)
      (isSome_unlock hu (h.page n page).status))
  | fault page => exact progress_fault h hc

end Progress

/-! ## One page of many -/

section Pages

variable {ok : Sigsegv.Net Node C → Sigsegv.Event Node C → Bool}

omit [DecidableEq Node] [DecidableEq C] in
@[simp] theorem setCtl_page [DecidableEq Node] (s : State Node C) (n : Node) (c : Ctl) :
    (s.setCtl n c).page = s.page := rfl

/-- What a step is for the pages by themselves. -/
theorem pages_step (hstep : step nodeList dsm s e = some s') :
    Network.run (Network.familyStep (Sigsegv.step nodeList)) s.page (pageSteps e) =
      some s'.page := by
  cases e with
  | lockRegion n r =>
    simp only [step] at hstep
    split at hstep
    · obtain rfl := Option.some.inj hstep
      rfl
    · cases hstep
  | unlockRegion n r =>
    simp only [step] at hstep
    split at hstep
    · obtain rfl := Option.some.inj hstep
      rfl
    · cases hstep
  | page n page a =>
    obtain ⟨c, -, hstep⟩ := Option.bind_eq_some_iff.mp hstep
    obtain ⟨t, ht, rfl⟩ := Option.map_eq_some_iff.mp hstep
    exact Network.run_cons_eq_some.mpr ⟨_, Option.map_eq_some_iff.mpr ⟨t, ht, rfl⟩, rfl⟩
  | next n =>
    simp only [step] at hstep
    split at hstep
    · split at hstep
      · obtain rfl := Option.some.inj hstep
        rfl
      · cases hstep
    · cases hstep
  | ret n =>
    simp only [step] at hstep
    split at hstep
    · obtain rfl := Option.some.inj hstep
      rfl
    · obtain rfl := Option.some.inj hstep
      rfl
    · cases hstep
  | deliver page m =>
    obtain ⟨t, ht, rfl⟩ := Option.map_eq_some_iff.mp hstep
    exact Network.run_cons_eq_some.mpr ⟨_, Option.map_eq_some_iff.mpr ⟨t, ht, rfl⟩, rfl⟩

theorem meets_pages_step (hok : onPage ok s e = true) :
    Network.Meets (Network.familyStep (Sigsegv.step nodeList))
      (fun t x => ok (t x.1) x.2 = true) s.page (pageSteps e) := by
  cases e with
  | page n page a =>
    refine ⟨?_, fun _ _ => trivial⟩
    simpa [onPage, pageSteps] using hok
  | deliver page m =>
    refine ⟨?_, fun _ _ => trivial⟩
    simpa [onPage, pageSteps] using hok
  | _ => trivial

/-- A run of the program is a run of every page. -/
theorem page_run {es : List (Event Node C)} (hrun : Network.run (step nodeList dsm) s es = some s')
    (hok : Network.Meets (step nodeList dsm) (fun s e => onPage ok s e = true) s es) (page : ℕ) :
    Network.run (Sigsegv.step nodeList) (s.page page) (stepsOn nodeList dsm page s es) =
        some (s'.page page) ∧
      Network.Meets (Sigsegv.step nodeList) (fun t x => ok t x = true) (s.page page)
        (stepsOn nodeList dsm page s es) := by
  have hsim : ∀ (s : State Node C) t e s', s.page = t → onPage ok s e = true →
      step nodeList dsm s e = some s' →
      ∃ t', Network.run (Network.familyStep (Sigsegv.step nodeList)) t (pageSteps e) = some t' ∧
        Network.Meets (Network.familyStep (Sigsegv.step nodeList))
          (fun t x => ok (t x.1) x.2 = true) t (pageSteps e) ∧ s'.page = t' := by
    rintro s _ e s' rfl hok hstep
    exact ⟨_, pages_step hstep, meets_pages_step hok, rfl⟩
  obtain ⟨t, ht, hmeets, rfl⟩ := Network.run_translate hsim rfl hok hrun
  exact ⟨Network.run_family ht page,
    Network.meets_family (fun t x => ok t x = true) hmeets page _ ht⟩

theorem joined_page [Fintype Node] {o : Node} {content : ℕ → Node → C} {es : List (Event Node C)}
    (hrun : Network.run (step nodeList dsm) (initState o content) es = some s)
    (hok : Network.Meets (step nodeList dsm)
      (fun s e => onPage Sigsegv.lockInOrder s e = true) (initState o content) es) (page : ℕ) :
    Sigsegv.Joined (s.page page) := by
  obtain ⟨hpage, hmeets⟩ := page_run hrun hok page
  have hinit : (initState o content).page page = Sigsegv.initNet o (content page) := rfl
  rw [hinit] at hpage hmeets
  obtain ⟨t, -, -, hj, -⟩ := Sigsegv.follows_run hpage hmeets
  exact hj

end Pages

/-! ## Readers and writers -/

section Exclusion

variable {n m : Node} {page : ℕ} {k k' : LockType}

omit [DecidableEq Node] [DecidableEq C] in
/-- The lock of a page that the program has locked is granted. -/
theorem Inv.returned_of_locked (h : Inv dsm s) (hk : (page, k) ∈ (s.ctl n).locked dsm) :
    ((s.page page).node n).lock.thread = .returned k := by
  have hplaced := (h.page n page).placed
  cases hplace : (s.ctl n).place page with
  | calm =>
    rw [hplace] at hplaced
    exact (hplaced.1 k hk).2.2
  | faulting =>
    rw [hplace] at hplaced
    exact (hplaced k hk).2.2
  | locking k' =>
    -- a page that is being locked is not locked yet
    obtain ⟨r, done, todo, hpc, -⟩ := place_locking hplace
    exact absurd hk ((h.ctl n).not_locked (by simp [Ctl.pending, hpc]))
  | unlocking k' =>
    obtain ⟨r, todo, hpc, -⟩ := place_unlocking hplace
    exact absurd hk ((h.ctl n).not_locked (by simp [Ctl.pending, hpc]))

/-- Regions are exclusive: in every run in which every node locks only regions apart from those it
has locked and unlocks only what it has locked, and the page locks hand the lock over in order, two
nodes have a page locked at the same time only for reading. -/
theorem regions_exclude [Fintype Node] {o : Node} {content : ℕ → Node → C}
    {es : List (Event Node C)}
    (hrun : Network.run (step nodeList dsm) (initState o content) es = some s)
    (hok : Network.Meets (step nodeList dsm)
      (fun s e => (bracketed dsm s e && onPage Sigsegv.lockInOrder s e) = true)
      (initState o content) es)
    (hnm : m ≠ n) (hn : (page, k) ∈ (s.ctl n).locked dsm) (hm : (page, k') ∈ (s.ctl m).locked dsm) :
    k = .read ∧ k' = .read := by
  have h := inv_run hrun (hok.mono fun _ _ hse => (Bool.and_eq_true_iff.mp hse).1)
  have hj := joined_page hrun (hok.mono fun _ _ hse => (Bool.and_eq_true_iff.mp hse).2) page
  exact hj.lock.readers_together hnm (h.returned_of_locked hn) (h.returned_of_locked hm)

end Exclusion

/-! ## The content of the pages -/

section Content

omit [DecidableEq Node] [DecidableEq C] in
theorem foldl_stepsOf (page : ℕ) (xs : List (ℕ × Sigsegv.Event Node C)) (v : C) :
    (Network.stepsOf page xs).foldl Sigsegv.lastStore v =
      xs.foldl (fun v x => if x.1 = page then Sigsegv.lastStore v x.2 else v) v := by
  induction xs generalizing v with
  | nil => rfl
  | cons x xs ih =>
    obtain ⟨q, a⟩ := x
    by_cases hq : q = page
    · subst hq
      rw [Network.stepsOf_cons_self, List.foldl_cons, List.foldl_cons, if_pos rfl]
      exact ih _
    · rw [Network.stepsOf_cons_ne hq, List.foldl_cons, if_neg hq]
      exact ih _

/-- The stores to a page in the run of the page are those in the run of the program. -/
theorem foldl_stepsOn {es : List (Event Node C)}
    (hrun : Network.run (step nodeList dsm) s es = some s') (page : ℕ) (v : C) :
    (stepsOn nodeList dsm page s es).foldl Sigsegv.lastStore v = es.foldl (lastStore page) v := by
  rw [stepsOn, foldl_stepsOf]
  refine Network.foldl_translate (fun s e v => ?_) hrun v
  cases e with
  | deliver q m =>
    simp [pageSteps, lastStore, Sigsegv.lastStore]
  | _ => rfl

omit [DecidableEq Node] [DecidableEq C] in
theorem setPage_self (s : State Node C) (page : ℕ) : s.setPage page (s.page page) = s := by
  simp [State.setPage]

omit [DecidableEq C] in
theorem setCtl_self (s : State Node C) (n : Node) : s.setCtl n (s.ctl n) = s := by
  simp [State.setCtl]

/-- A load changes nothing. -/
theorem load_step {i : Node} {page : ℕ}
    (hstep : step nodeList dsm s (.page i page .load) = some s') :
    s' = s ∧ Sigsegv.load ((s.page page).node i) = some ((s.page page).node i) := by
  obtain ⟨c, hc, hstep⟩ := Option.bind_eq_some_iff.mp hstep
  obtain ⟨t, ht, rfl⟩ := Option.map_eq_some_iff.mp hstep
  obtain ⟨-, hc⟩ := Option.ite_none_right_eq_some.mp hc
  obtain rfl := Option.some.inj hc
  obtain ⟨rfl, hload⟩ := Sigsegv.load_of_step ht
  exact ⟨by rw [setPage_self, setCtl_self], hload⟩

/-- What a load from a page that is locked finds. -/
theorem content_at_load [Fintype Node] (hlist : ∀ n m, m ∈ nodeList n ↔ m ≠ n) {o : Node}
    {content : ℕ → Node → C} {es : List (Event Node C)} {i : Node} {page : ℕ} {k : LockType}
    (hrun : Network.run (step nodeList dsm) (initState o content) es = some s)
    (hok : Network.Meets (step nodeList dsm) (fun s e => (bracketed dsm s e &&
      onPage (fun t x => Sigsegv.lockInOrder t x && Sigsegv.upToDate t x) s e) = true)
      (initState o content) es)
    (hstep : step nodeList dsm s (.page i page .load) = some s')
    (hk : (page, k) ∈ (s.ctl i).locked dsm) :
    ((s.page page).node i).data.content = es.foldl (lastStore page) (content page o) := by
  have h : Inv dsm s := inv_run hrun (hok.mono fun _ _ hse => (Bool.and_eq_true_iff.mp hse).1)
  obtain ⟨hpage, hmeets⟩ := page_run hrun
    (hok.mono fun _ _ hse => (Bool.and_eq_true_iff.mp hse).2) page
  have hinit : (initState o content).page page = Sigsegv.initNet o (content page) := rfl
  rw [hinit] at hpage hmeets
  have hmode : ((s.page page).node i).data.mode ≠ .none := by
    rw [((s.page page).node i).mode_eq]
    exact mode_ne_none (h.page i page).status (h.returned_of_locked hk)
  rw [Sigsegv.content_of_load hlist hpage hmeets (load_step hstep).2 hmode, foldl_stepsOn hrun]

/-- Coherence of the shared memory: in every run in which every node locks only regions apart from
those it has locked and unlocks only what it has locked, the page locks hand the lock over in order
and no node relies on its copy of a page while an `INVALIDATION` of it is in flight, a load from a
page of a region that the node has locked finds what the last store of any node to that page has
left. -/
theorem region_load_finds_last_store [Fintype Node] (hlist : ∀ n m, m ∈ nodeList n ↔ m ≠ n)
    {o : Node} {content : ℕ → Node → C} {es : List (Event Node C)} {i : Node} {page : ℕ}
    {k : LockType}
    (hrun : Network.run (step nodeList dsm) (initState o content) (es ++ [.page i page .load]) =
      some s)
    (hok : Network.Meets (step nodeList dsm) (fun s e => (bracketed dsm s e &&
      onPage (fun t x => Sigsegv.lockInOrder t x && Sigsegv.upToDate t x) s e) = true)
      (initState o content) es)
    (hk : (page, k) ∈ (s.ctl i).locked dsm) :
    ((s.page page).node i).data.content = es.foldl (lastStore page) (content page o) := by
  rw [Network.run_append] at hrun
  obtain ⟨s₁, hs₁, hload⟩ := Option.bind_eq_some_iff.mp hrun
  obtain ⟨s₂, hstep, hnil⟩ := Network.run_cons_eq_some.mp hload
  obtain rfl := Option.some.inj hnil
  obtain ⟨rfl, -⟩ := load_step hstep
  exact content_at_load hlist hs₁ hok hstep hk

end Content

/-! ## Waiting in a circle -/

section Circle

variable {n m : Node} {page page' : ℕ}

omit [DecidableEq Node] [DecidableEq C] in
/-- Whoever waits in `ask_lock` is in the body of the loop for that page. -/
theorem Inv.pc_of_waits (h : Inv dsm s) (hw : WaitsAt s n page) :
    ∃ r done todo, (s.ctl n).pc = .lockPage r done page todo := by
  have hnot : ∀ {th}, Calm th ((s.page page).node n) → Sigsegv.waiting th = true := by
    intro th hcalm
    rw [← hcalm.2.2]
    exact hw
  have hplaced := (h.page n page).placed
  cases hplace : (s.ctl n).place page with
  | calm =>
    rw [hplace] at hplaced
    by_cases hex : ∃ k, (page, k) ∈ (s.ctl n).locked dsm
    · obtain ⟨k, hk⟩ := hex
      cases hnot (hplaced.1 k hk)
    · cases hnot (hplaced.2 fun k hk => hex ⟨k, hk⟩)
  | faulting =>
    rw [hplace] at hplaced
    have hwhole := (h.ctl n).whole
    rw [place_faulting hplace] at hwhole
    obtain ⟨k, hk⟩ := hwhole
    have hth := (hplaced k hk).2.2
    simp [WaitsAt, hth, Sigsegv.waiting] at hw
  | locking k =>
    obtain ⟨r, done, todo, hpc, -⟩ := place_locking hplace
    exact ⟨r, done, todo, hpc⟩
  | unlocking k =>
    rw [hplace] at hplaced
    simp [WaitsAt, hplaced.2.2, Sigsegv.waiting] at hw

omit [DecidableEq Node] [DecidableEq C] in
/-- A node that waits has only pages locked that the loop has gone through, or that were locked
before. -/
theorem Inv.locked_of_holds (h : Inv dsm s) (hw : WaitsAt s m page') (hm : HoldsPage s m page) :
    ∃ k, (page, k) ∈ (s.ctl m).locked dsm := by
  obtain ⟨r, done, todo, hpc⟩ := h.pc_of_waits hw
  obtain ⟨k, hret⟩ := hm
  have hne : page' ≠ page := by
    rintro rfl
    simp [WaitsAt, hret, Sigsegv.waiting] at hw
  by_contra hno
  have hplaced := (h.page m page).placed
  simp only [Ctl.place, hpc, if_neg hne] at hplaced
  have hidle := (hplaced.2 fun k hk => hno ⟨k, hk⟩).2.2
  simp [hret] at hidle

omit [DecidableEq Node] [DecidableEq C] in
theorem Ascends.of_pc {c : Ctl} (hpc : c.pc = .running) : Ascends dsm c := by
  simp [Ascends, hpc]

omit [DecidableEq C] in
theorem ascends_setCtl (h : ∀ m, Ascends dsm (s.ctl m)) {c : Ctl} (hc : Ascends dsm c) :
    ∀ m, Ascends dsm ((s.setCtl n c).ctl m) := by
  intro m
  by_cases hm : m = n
  · subst hm
    simpa [State.setCtl] using hc
  · simpa [State.setCtl, hm] using h m

omit [DecidableEq Node] [DecidableEq C] in
theorem ascends_pageMove {c c' : Ctl} {a : Sigsegv.Action C} (h : Ascends dsm c)
    (hmove : c.pageMove page a = some c') : Ascends dsm c' := by
  obtain ⟨pc, opened⟩ := c
  cases a with
  | lock k =>
    cases pc with
    | lock r done todo =>
      cases todo with
      | nil => cases hmove
      | cons q todo =>
        obtain ⟨-, ⟨⟩⟩ := Option.ite_none_right_eq_some.mp hmove
        exact h
    | _ => cases hmove
  | release =>
    cases pc with
    | unlock r todo =>
      cases todo with
      | nil => cases hmove
      | cons q todo =>
        obtain ⟨-, ⟨⟩⟩ := Option.ite_none_right_eq_some.mp hmove
        trivial
    | _ => cases hmove
  | unlock =>
    cases pc with
    | unlockPage r q todo =>
      obtain ⟨-, ⟨⟩⟩ := Option.ite_none_right_eq_some.mp hmove
      trivial
    | _ => cases hmove
  | sigsevHandler writing =>
    obtain ⟨-, ⟨⟩⟩ := Option.ite_none_right_eq_some.mp hmove
    trivial
  | sigsevReturn =>
    obtain ⟨-, ⟨⟩⟩ := Option.ite_none_right_eq_some.mp hmove
    trivial
  | wake =>
    obtain ⟨-, ⟨⟩⟩ := Option.ite_none_right_eq_some.mp hmove
    exact h
  | store x =>
    obtain ⟨-, ⟨⟩⟩ := Option.ite_none_right_eq_some.mp hmove
    exact h
  | load =>
    obtain ⟨-, ⟨⟩⟩ := Option.ite_none_right_eq_some.mp hmove
    exact h
  | _ =>
    cases pc with
    | lockPage r done q todo =>
      obtain ⟨-, ⟨⟩⟩ := Option.ite_none_right_eq_some.mp hmove
      exact h
    | _ => cases hmove

/-- The pages of a call stay in increasing order. -/
theorem ascends_step (h : ∀ n, Ascends dsm (s.ctl n)) (hok : ascending dsm s e = true)
    (hstep : step nodeList dsm s e = some s') : ∀ n, Ascends dsm (s'.ctl n) := by
  cases e with
  | lockRegion n r =>
    obtain ⟨hpc, hs'⟩ := Option.ite_none_right_eq_some.mp hstep
    obtain rfl := Option.some.inj hs'
    refine ascends_setCtl h ⟨List.pairwise_lt_range', ?_⟩
    have hlocked : Ctl.locked dsm { s.ctl n with pc := .lock r [] (r.pages dsm) } =
        (s.ctl n).locked dsm := by simp [Ctl.locked, hpc, withKind]
    rw [hlocked]
    simpa [ascending] using hok
  | unlockRegion n r =>
    obtain ⟨-, hs'⟩ := Option.ite_none_right_eq_some.mp hstep
    obtain rfl := Option.some.inj hs'
    exact ascends_setCtl h trivial
  | page n page a =>
    obtain ⟨c, hmove, hstep⟩ := Option.bind_eq_some_iff.mp hstep
    obtain ⟨t, ht, rfl⟩ := Option.map_eq_some_iff.mp hstep
    exact ascends_setCtl (s := s.setPage page t) h (ascends_pageMove (h n) hmove)
  | next n =>
    have hn := h n
    simp only [step] at hstep
    split at hstep
    · rename_i r done page todo hpc
      obtain ⟨-, hs'⟩ := Option.ite_none_right_eq_some.mp hstep
      obtain rfl := Option.some.inj hs'
      refine ascends_setCtl h ?_
      simp only [Ascends, hpc] at hn
      obtain ⟨hsorted, hbelow⟩ := hn
      obtain ⟨hpage, htodo⟩ := List.pairwise_cons.mp hsorted
      refine ⟨htodo, fun x hx q hq => ?_⟩
      -- the page that has been locked is below those to come
      simp only [Ctl.locked, List.mem_append, mem_withKind, List.mem_singleton] at hx
      have hold : x ∈ (s.ctl n).locked dsm ∨ x.1 = page := by
        simp only [Ctl.locked, hpc, List.mem_append, mem_withKind]
        tauto
      rcases hold with hold | rfl
      · exact hbelow x hold q (List.mem_cons_of_mem _ hq)
      · exact hpage q hq
    · cases hstep
  | ret n =>
    simp only [step] at hstep
    split at hstep
    · obtain rfl := Option.some.inj hstep
      exact ascends_setCtl h trivial
    · obtain rfl := Option.some.inj hstep
      exact ascends_setCtl h trivial
    · cases hstep
  | deliver page m =>
    obtain ⟨t, ht, rfl⟩ := Option.map_eq_some_iff.mp hstep
    exact h

/-- No waiting in a circle: in every run in which every node unlocks only what it has locked and
locks a region only above all pages that it has locked, there are no nodes that wait in `ask_lock`
for pages of each other in a circle. This holds for every order of the messages. -/
theorem no_circular_wait {o : Node} {content : ℕ → Node → C} {es : List (Event Node C)}
    (hrun : Network.run (step nodeList dsm) (initState o content) es = some s)
    (hok : Network.Meets (step nodeList dsm)
      (fun s e => (bracketed dsm s e && ascending dsm s e) = true) (initState o content) es) :
    ∀ n, ¬ Relation.TransGen (WaitsFor s) n n := by
  have h := inv_run hrun (hok.mono fun _ _ hse => (Bool.and_eq_true_iff.mp hse).1)
  have hasc : ∀ n, Ascends dsm (s.ctl n) :=
    Network.run_invariant (P := fun s : State Node C => ∀ n, Ascends dsm (s.ctl n))
      (fun _ _ _ h hok hstep => ascends_step h hok hstep) (fun _ => Ascends.of_pc rfl)
      (hok.mono fun _ _ hse => (Bool.and_eq_true_iff.mp hse).2) hrun
  -- along a chain of waits the pages waited for increase
  have hedge : ∀ {a b q q'}, WaitsFor s a b → WaitsAt s a q → WaitsAt s b q' → q < q' := by
    rintro a b q q' ⟨q₁, hq₁, hb⟩ ha hw
    obtain ⟨r, done, todo, hpc⟩ := h.pc_of_waits ha
    obtain ⟨r₁, done₁, todo₁, hpc₁⟩ := h.pc_of_waits hq₁
    obtain rfl : q₁ = q := by
      rw [hpc] at hpc₁
      injection hpc₁ with _ _ hq _
      exact hq.symm
    obtain ⟨r', done', todo', hpc'⟩ := h.pc_of_waits hw
    obtain ⟨k, hk⟩ := h.locked_of_holds hw hb
    have hb' := hasc b
    simp only [Ascends, hpc'] at hb'
    exact hb'.2 _ hk q' List.mem_cons_self
  have hchain : ∀ {a b}, Relation.TransGen (WaitsFor s) a b →
      ∀ {q q'}, WaitsAt s a q → WaitsAt s b q' → q < q' := by
    intro a b hab
    induction hab with
    | single hab => exact fun hq hq' => hedge hab hq hq'
    | tail hab hbc ih =>
      intro q q' hq hq'
      obtain ⟨q₁, hq₁, hm⟩ := hbc
      exact (ih hq hq₁).trans (hedge ⟨q₁, hq₁, hm⟩ hq₁ hq')
  intro n hn
  obtain ⟨m, hm, -⟩ := Relation.TransGen.head'_iff.mp hn
  obtain ⟨q, hq, -⟩ := hm
  exact absurd (hchain hn hq hq) (lt_irrefl q)

end Circle

/-! ## A program -/

/-- The first two pages, at the base `0x10000`. -/
def bothPages (k : LockType) : Region := ⟨k, 0x10000, 8192⟩

/-- The loop of the node `b` locks the page, which the node `a` hands over. -/
def lockOn (a b : Node) (page : ℕ) (k : LockType) : List (Event Node C) :=
  [.page b page (.lock k), .page b page .askLock, .deliver page (.lock (.askLock a b b k)),
    .deliver page (.lock (.getLock b a a k)), .page b page .resume, .next b]

/-- The node `b` faults on the page and fetches it from `a`. -/
def faultOn (a b : Node) (page : ℕ) (writing : Bool) (content : C) : List (Event Node C) :=
  [.page b page (.sigsevHandler writing), .deliver page (.data (.askPage a b)),
    .deliver page (.data (.recvPage b a content)), .page b page .wake, .page b page .sigsevReturn]

/-- The node `b` locks both pages for writing and stores `new` in the second one. -/
def storeProgram (a b : Node) (old new : C) : List (Event Node C) :=
  [.lockRegion b (bothPages .write)] ++ lockOn a b 0 .write ++ lockOn a b 1 .write ++
    [.ret b] ++ faultOn a b 1 true old ++ [.page b 1 (.store new)]

/-- The node `b` stores `new`, and then the node `a` locks both pages for reading. -/
def loadProgram (a b : Node) (old new : C) : List (Event Node C) :=
  storeProgram a b old new ++
    [.unlockRegion b (bothPages .write), .page b 0 .release, .page b 0 .unlock, .page b 1 .release,
      .page b 1 .unlock, .ret b, .deliver 1 (.data (.invalidation a b)),
      .lockRegion a (bothPages .read)] ++
    lockOn b a 0 .read ++ lockOn b a 1 .read ++ [.ret a] ++ faultOn b a 1 false new

/-- The node `a`, which has the tokens, locks both pages by itself. -/
def lockAlone (a : Node) (k : LockType) : List (Event Node C) :=
  [.lockRegion a (bothPages k), .page a 0 (.lock k), .page a 0 .askLock, .next a,
    .page a 1 (.lock k), .page a 1 .askLock, .next a, .ret a]

theorem regions_exclude_lockAlone :
    ∃ s : State (Fin 2) ℕ, Network.run (step (fun n => [n + 1]) 0x10000)
        (initState 0 fun _ _ => 0) (lockAlone 0 .read ++ .lockRegion 1 (bothPages .read) ::
          lockOn 0 1 0 .read) = some s ∧
      (0, LockType.read) ∈ (s.ctl 0).locked 0x10000 ∧
      (0, LockType.read) ∈ (s.ctl 1).locked 0x10000 ∧
      LockType.read = .read ∧ LockType.read = .read := by
  obtain ⟨s, hrun, hn, hm⟩ : ∃ s : State (Fin 2) ℕ,
      Network.run (step (fun n => [n + 1]) 0x10000) (initState 0 fun _ _ => 0)
        (lockAlone 0 .read ++ .lockRegion 1 (bothPages .read) :: lockOn 0 1 0 .read) = some s ∧
      (0, LockType.read) ∈ (s.ctl 0).locked 0x10000 ∧
      (0, LockType.read) ∈ (s.ctl 1).locked 0x10000 := ⟨_, rfl, by decide, by decide⟩
  exact ⟨s, hrun, hn, hm, regions_exclude hrun (by decide) (by decide) hn hm⟩

theorem no_circular_wait_lockAlone :
    ∃ s : State (Fin 2) ℕ, Network.run (step (fun n => [n + 1]) 0x10000)
        (initState 0 fun _ _ => 0) (lockAlone 0 .write ++ [.lockRegion 1 (bothPages .write),
          .page 1 0 (.lock .write), .page 1 0 .askLock]) = some s ∧
      WaitsFor s 1 0 ∧ ¬ Relation.TransGen (WaitsFor s) 1 1 := by
  obtain ⟨s, hrun, hw, hh⟩ : ∃ s : State (Fin 2) ℕ,
      Network.run (step (fun n => [n + 1]) 0x10000) (initState 0 fun _ _ => 0)
        (lockAlone 0 .write ++ [.lockRegion 1 (bothPages .write), .page 1 0 (.lock .write),
          .page 1 0 .askLock]) = some s ∧
      Sigsegv.waiting ((s.page 0).node 1).lock.thread = true ∧
      ((s.page 0).node 0).lock.thread = .returned .write := ⟨_, rfl, by decide, by decide⟩
  exact ⟨s, hrun, ⟨0, hw, .write, hh⟩, no_circular_wait hrun (by decide) 1⟩

theorem region_load_finds_last_store_loadProgram :
    ∃ s, Network.run (step (fun n => [n + 1]) 0x10000) (initState 0 fun _ _ => 0)
        (loadProgram (0 : Fin 2) 1 0 5 ++ [.page 0 1 .load]) = some s ∧
      ((s.page 1).node 0).data.content =
        (loadProgram (0 : Fin 2) 1 0 5).foldl (lastStore 1) 0 := by
  have hrun : Network.run (step (fun n => [n + 1]) 0x10000) (initState 0 fun _ _ => 0)
    (loadProgram (0 : Fin 2) 1 0 5 ++ [.page 0 1 .load]) = some _ := rfl
  exact ⟨_, hrun, region_load_finds_last_store (k := .read) (by decide) hrun (by decide) (by decide)⟩

end Dsm.System
