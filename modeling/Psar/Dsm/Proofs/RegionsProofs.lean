import Psar.Dsm.Regions
import Psar.Dsm.Proofs.SystemRunProofs
import Psar.Library.Proofs.TransactionsProofs

/-!
# Proofs: regions as transactions

Every step of the program is a step of the machine with locks: a page lock is granted only when no
other node has the page locked in another way, and a load finds what is in the memory.
-/

namespace Dsm.System

open PageLock (LockType)
open Transactions (Locked Memory)

/-! ## The locks of one node -/

section Ctl

variable {C : Type} {dsm : BitVec 64} {c c' : Ctl} {held : ℕ → Option Transactions.Kind}
  {region : Option (List ℕ)} {page : ℕ} {k : LockType}

theorem kindOf_injective : Function.Injective kindOf := by
  intro k k' h
  cases k <;> cases k' <;> simp_all [kindOf]

theorem exists_kindOf (k : Transactions.Kind) : ∃ k', kindOf k' = k := by
  cases k
  · exact ⟨.read, rfl⟩
  · exact ⟨.write, rfl⟩

theorem CtlShows.held_ne_none (h : CtlShows dsm c held region) :
    held page ≠ none ↔ ∃ k, (page, k) ∈ c.locked dsm := by
  constructor
  · intro hne
    obtain ⟨k, hk⟩ := Option.ne_none_iff_exists'.mp hne
    obtain ⟨k', rfl⟩ := exists_kindOf k
    exact ⟨k', (h.held page k').mp hk⟩
  · rintro ⟨k, hk⟩
    rw [(h.held page k).mpr hk]
    simp

theorem CtlShows.of_same (h : CtlShows dsm c held region) (halone : OneRegion c')
    (hopened : c'.opened = c.opened)
    (hlocked : ∀ q k, (q, k) ∈ c'.locked dsm ↔ (q, k) ∈ c.locked dsm) :
    CtlShows dsm c' held region where
  alone := halone
  held := fun q k => (h.held q k).trans (hlocked q k).symm
  region := by rw [hopened, h.region]

theorem CtlShows.region_of_nil (h : CtlShows dsm c held region) (hopened : c.opened = []) :
    region = none := by
  rw [h.region, hopened]
  rfl

/-- A region that is open is the only one. -/
theorem CtlShows.region_of_mem (h : CtlShows dsm c held region)
    (hpc : c.pc = .running ∨ ∃ q, c.pc = .fault q) {r : Region} (hr : r ∈ c.opened) :
    c.opened = [r] ∧ region = some (r.pages dsm) := by
  have hlen : c.opened.length ≤ 1 := by
    have halone := h.alone
    rcases hpc with hpc | ⟨q, hpc⟩ <;> simpa [OneRegion, hpc] using halone
  have hopened : c.opened = [r] := by
    obtain ⟨pc, opened⟩ := c
    cases opened with
    | nil => cases hr
    | cons r' rs =>
      cases rs with
      | nil =>
        obtain rfl := List.mem_singleton.mp hr
        rfl
      | cons r'' rs => simp at hlen
  refine ⟨hopened, ?_⟩
  rw [h.region, hopened]
  rfl

theorem locked_of_opened {r : Region} (hpc : c.pc = .running) (hopened : c.opened = [r]) :
    c.locked dsm = withKind r.kind (r.pages dsm) := by
  simp [Ctl.locked, hpc, hopened, openedPages]

/-- A step on a page other than its release locks and unlocks nothing. -/
theorem CtlShows.pageMove {a : Sigsegv.Action C} (h : CtlShows dsm c held region)
    (ha : a ≠ .release) (hmove : c.pageMove page a = some c') : CtlShows dsm c' held region := by
  have halone := h.alone
  obtain ⟨pc, opened⟩ := c
  cases a with
  | lock k =>
    cases pc with
    | lock r done todo =>
      cases todo with
      | nil => cases hmove
      | cons q todo =>
        obtain ⟨-, hc⟩ := Option.ite_none_right_eq_some.mp hmove
        obtain rfl := Option.some.inj hc
        exact h.of_same halone rfl fun _ _ => Iff.rfl
    | _ => cases hmove
  | release => exact absurd rfl ha
  | unlock =>
    cases pc with
    | unlockPage r q todo =>
      obtain ⟨-, hc⟩ := Option.ite_none_right_eq_some.mp hmove
      obtain rfl := Option.some.inj hc
      exact h.of_same halone rfl fun _ _ => Iff.rfl
    | _ => cases hmove
  | sigsevHandler writing =>
    obtain ⟨hpc, hc⟩ := Option.ite_none_right_eq_some.mp hmove
    obtain rfl := Option.some.inj hc
    obtain rfl : pc = .running := hpc
    exact h.of_same halone rfl fun _ _ => Iff.rfl
  | wake =>
    obtain ⟨-, hc⟩ := Option.ite_none_right_eq_some.mp hmove
    obtain rfl := Option.some.inj hc
    exact h
  | sigsevReturn =>
    obtain ⟨hpc, hc⟩ := Option.ite_none_right_eq_some.mp hmove
    obtain rfl := Option.some.inj hc
    obtain rfl : pc = .fault page := hpc
    exact h.of_same halone rfl fun _ _ => Iff.rfl
  | store x =>
    obtain ⟨-, hc⟩ := Option.ite_none_right_eq_some.mp hmove
    obtain rfl := Option.some.inj hc
    exact h
  | load =>
    obtain ⟨-, hc⟩ := Option.ite_none_right_eq_some.mp hmove
    obtain rfl := Option.some.inj hc
    exact h
  | _ =>
    cases pc with
    | lockPage r done q todo =>
      obtain ⟨-, hc⟩ := Option.ite_none_right_eq_some.mp hmove
      obtain rfl := Option.some.inj hc
      exact h
    | _ => cases hmove

/-- The release of a page unlocks it. -/
theorem CtlShows.release (h : CtlShows dsm c held region) (hc : CtlInv dsm c)
    (hmove : c.pageMove page (.release : Sigsegv.Action C) = some c') :
    held page ≠ none ∧ region = none ∧ CtlShows dsm c' (Function.update held page none) region := by
  have halone := h.alone
  obtain ⟨pc, opened⟩ := c
  cases pc with
  | unlock r todo =>
    cases todo with
    | nil => cases hmove
    | cons q todo =>
      obtain ⟨rfl, heq⟩ := Option.ite_none_right_eq_some.mp hmove
      obtain rfl := Option.some.inj heq
      have hopened : opened = [] := halone
      have hmem : ∀ q' k, (q', k) ∈ Ctl.locked dsm ⟨.unlock r (q :: todo), opened⟩ ↔
          (q', k) ∈ Ctl.locked dsm ⟨.unlockPage r q todo, opened⟩ ∨ q' = q ∧ k = r.kind := by
        intro q' k
        simp only [Ctl.locked, List.mem_append, mem_withKind, List.mem_cons]
        tauto
      have hnot : ∀ k, (q, k) ∉ Ctl.locked dsm ⟨.unlockPage r q todo, opened⟩ := by
        intro k hk
        have hnodup := hc.nodup
        simp only [Ctl.locked, Ctl.pending, List.append_nil, map_fst_withKind, hopened, openedPages,
          List.flatMap_nil, List.nil_append] at hnodup
        simp only [Ctl.locked, hopened, openedPages, List.flatMap_nil, List.nil_append,
          mem_withKind] at hk
        exact (List.nodup_cons.mp hnodup).1 hk.1
      refine ⟨h.held_ne_none.mpr ⟨r.kind, (hmem q r.kind).mpr (Or.inr ⟨rfl, rfl⟩)⟩,
        h.region_of_nil hopened, halone, fun q' k => ?_, h.region⟩
      by_cases hq : q' = q
      · subst hq
        simp [hnot k]
      · rw [Function.update_of_ne hq, h.held, hmem]
        simp [hq]
  | _ => cases hmove

/-- `ask_lock` has returned for the page. -/
theorem CtlShows.next {r : Region} {done todo : List ℕ} (h : CtlShows dsm c held region)
    (hc : CtlInv dsm c) (hpc : c.pc = .lockPage r done page todo) :
    held page = none ∧ region = none ∧ CtlShows dsm { c with pc := .lock r (done ++ [page]) todo }
      (Function.update held page (some (kindOf r.kind))) region := by
  have hnot : ∀ k, (page, k) ∉ c.locked dsm := fun k => hc.not_locked (by simp [Ctl.pending, hpc])
  have hnone : held page = none := by
    by_contra hne
    obtain ⟨k, hk⟩ := h.held_ne_none.mp hne
    exact hnot k hk
  obtain ⟨pc, opened⟩ := c
  obtain rfl : pc = _ := hpc
  have hmem : ∀ q k, (q, k) ∈ Ctl.locked dsm ⟨.lock r (done ++ [page]) todo, opened⟩ ↔
      (q, k) ∈ Ctl.locked dsm ⟨.lockPage r done page todo, opened⟩ ∨ q = page ∧ k = r.kind := by
    intro q k
    simp only [Ctl.locked, List.mem_append, mem_withKind, List.mem_singleton]
    tauto
  refine ⟨hnone, h.region_of_nil h.alone, h.alone, fun q k => ?_, h.region⟩
  rw [hmem]
  by_cases hq : q = page
  · subst hq
    rw [Function.update_self, Option.some.injEq, kindOf_injective.eq_iff]
    simp [hnot k, eq_comm]
  · rw [Function.update_of_ne hq, h.held]
    simp [hq]

/-- The call that locks the region returns. -/
theorem CtlShows.enter {r : Region} {done : List ℕ} (h : CtlShows dsm c held region)
    (hc : CtlInv dsm c) (hpc : c.pc = .lock r done []) :
    region = none ∧ (∀ page ∈ r.pages dsm, held page ≠ none) ∧
      CtlShows dsm ⟨.running, r :: c.opened⟩ held (some (r.pages dsm)) := by
  obtain ⟨pc, opened⟩ := c
  obtain rfl : pc = _ := hpc
  obtain rfl : opened = [] := h.alone
  obtain rfl : done = r.pages dsm := by simpa using hc.whole
  have hlocked : Ctl.locked dsm ⟨.running, [r]⟩ = Ctl.locked dsm ⟨.lock r (r.pages dsm) [], []⟩ := by
    simp [Ctl.locked, openedPages]
  refine ⟨h.region, fun page hp => h.held_ne_none.mpr ⟨r.kind, ?_⟩, ?_, fun q k => ?_, rfl⟩
  · simpa [Ctl.locked, openedPages] using hp
  · simp [OneRegion]
  · rw [hlocked]
    exact h.held q k

/-- The region is about to be unlocked. -/
theorem CtlShows.exit {r : Region} (h : CtlShows dsm c held region) (hpc : c.pc = .running)
    (hr : r ∈ c.opened) : region ≠ none ∧
      CtlShows dsm ⟨.unlock r (r.pages dsm), c.opened.erase r⟩ held none := by
  obtain ⟨hopened, hregion⟩ := h.region_of_mem (Or.inl hpc) hr
  refine ⟨by simp [hregion], by simp [OneRegion, hopened], fun q k => ?_, by simp [hopened]⟩
  rw [h.held, locked_of_opened hpc hopened]
  simp [Ctl.locked, hopened, openedPages]

/-- A page that is locked by the program itself is a page of its region. -/
theorem CtlShows.region_of_locked (h : CtlShows dsm c held region) (hpc : c.pc = .running)
    (hk : (page, k) ∈ c.locked dsm) :
    ∃ r, c.opened = [r] ∧ region = some (r.pages dsm) ∧ page ∈ r.pages dsm ∧ k = r.kind := by
  simp only [Ctl.locked, hpc, List.append_nil, openedPages, List.mem_flatMap] at hk
  obtain ⟨r, hr, hk⟩ := hk
  obtain ⟨hopened, hregion⟩ := h.region_of_mem (Or.inl hpc) hr
  obtain ⟨hp, rfl⟩ := mem_withKind.mp hk
  exact ⟨r, hopened, hregion, hp, rfl⟩

end Ctl

/-! ## Steps -/

section Step

variable {Node C : Type} [DecidableEq Node] [DecidableEq C] {nodeList : Node → List Node}
  {dsm : BitVec 64} {s s' : State Node C} {v : ℕ → C} {l l' : Locked Node ℕ C} {n : Node}

omit [DecidableEq Node] [DecidableEq C] in
theorem Shows.setPage (h : Shows dsm s v l) (page : ℕ) (t : Sigsegv.Net Node C) :
    Shows dsm (s.setPage page t) v l :=
  ⟨h.content, h.ctl⟩

omit [DecidableEq C] in
theorem Shows.setCtl (h : Shows dsm s v l) {c : Ctl} (hcontent : l'.content = l.content)
    (hn : CtlShows dsm c (l'.held n) (l'.region n))
    (hm : ∀ m, m ≠ n → l'.held m = l.held m ∧ l'.region m = l.region m) :
    Shows dsm (s.setCtl n c) v l' where
  content := hcontent.trans h.content
  ctl := fun m => by
    by_cases hmn : m = n
    · subst hmn
      simpa [State.setCtl] using hn
    · obtain ⟨hheld, hregion⟩ := hm m hmn
      simpa [State.setCtl, hmn, hheld, hregion] using h.ctl m

omit [DecidableEq C] in
/-- A step that the machine with locks does not see. -/
theorem Shows.setCtl_same (h : Shows dsm s v l) {c : Ctl}
    (hn : CtlShows dsm c (l.held n) (l.region n)) : Shows dsm (s.setCtl n c) v l :=
  h.setCtl rfl hn fun _ _ => ⟨rfl, rfl⟩

omit [DecidableEq C] in
theorem run_single {e : Transactions.Event Node ℕ C} (he : l.enabled e) :
    Network.run Locked.step l [e] = some (l.after e) := by
  rw [Network.run_cons_eq_some]
  exact ⟨_, Transactions.step_eq_some.mpr ⟨he, rfl⟩, rfl⟩

theorem shows_lockRegion {r : Region} (h : Shows dsm s v l)
    (hok : oneRegion dsm s (.lockRegion n r) = true)
    (hstep : step nodeList dsm s (.lockRegion n r) = some s') : Shows dsm s' v l := by
  obtain ⟨hpc, hs'⟩ := Option.ite_none_right_eq_some.mp hstep
  obtain rfl := Option.some.inj hs'
  obtain ⟨hopened, -⟩ : (s.ctl n).opened = [] ∧ (s.ctl n).locked dsm = [] := by
    simpa [oneRegion] using hok
  refine h.setCtl_same ((h.ctl n).of_same hopened rfl fun q k => ?_)
  simp [Ctl.locked, hpc, withKind]

theorem shows_unlockRegion {r : Region} (h : Shows dsm s v l)
    (hok : oneRegion dsm s (.unlockRegion n r) = true)
    (hstep : step nodeList dsm s (.unlockRegion n r) = some s') :
    l.enabled (.exit n) ∧ Shows dsm s' v (l.after (.exit n)) := by
  obtain ⟨hpc, hs'⟩ := Option.ite_none_right_eq_some.mp hstep
  obtain rfl := Option.some.inj hs'
  obtain ⟨hne, hexit⟩ := (h.ctl n).exit hpc (by simpa [oneRegion] using hok)
  refine ⟨hne, h.setCtl rfl ?_ fun m hm => ⟨rfl, ?_⟩⟩
  · simpa [Locked.after, Locked.setRegion] using hexit
  · simp [Locked.after, Locked.setRegion, hm]

/-- `ask_lock` returns only if no other node has the page locked in another way. -/
theorem shows_next [Fintype Node] (h : Shows dsm s v l) (hinv : Inv dsm s)
    (hj : ∀ page, Sigsegv.Joined (s.page page))
    (hstep : step nodeList dsm s (.next n) = some s') :
    ∃ l', Network.run Locked.step l (lockedEvents dsm s (.next n)) = some l' ∧ Shows dsm s' v l' := by
  simp only [step] at hstep
  split at hstep
  · rename_i r done page todo hpc
    obtain ⟨hrun, hs'⟩ := Option.ite_none_right_eq_some.mp hstep
    obtain rfl := Option.some.inj hs'
    obtain ⟨hnone, -, hnext⟩ := (h.ctl n).next (hinv.ctl n) hpc
    have hret : ((s.page page).node n).lock.thread = .returned r.kind := by
      have hplaced := (hinv.page n page).placed
      simp only [Ctl.place, hpc, if_true] at hplaced
      exact (hplaced.calm_of_running hrun).2.2
    have hadmits : l.admits n page (kindOf r.kind) := by
      intro m hm k hk
      obtain ⟨k', rfl⟩ := exists_kindOf k
      have hm' := hinv.returned_of_locked (((h.ctl m).held page k').mp hk)
      obtain ⟨hr, hr'⟩ := (hj page).lock.readers_together hm hret hm'
      exact ⟨by rw [hr, kindOf], by rw [hr', kindOf]⟩
    have hevents : lockedEvents dsm s (.next n) = [.lock n page (kindOf r.kind)] := by
      simp [lockedEvents, hpc]
    rw [hevents]
    refine ⟨_, run_single ⟨hnone, hadmits⟩, h.setCtl rfl ?_ fun m hm => ⟨?_, rfl⟩⟩
    · simpa [Locked.after, Locked.setHeld] using hnext
    · simp [Locked.after, Locked.setHeld, hm]
  · cases hstep

theorem shows_ret (h : Shows dsm s v l) (hinv : Inv dsm s)
    (hstep : step nodeList dsm s (.ret n) = some s') :
    ∃ l', Network.run Locked.step l (lockedEvents dsm s (.ret n)) = some l' ∧ Shows dsm s' v l' := by
  simp only [step] at hstep
  split at hstep
  · rename_i r done hpc
    obtain rfl := Option.some.inj hstep
    obtain ⟨hnone, hheld, henter⟩ := (h.ctl n).enter (hinv.ctl n) hpc
    have hevents : lockedEvents dsm s (.ret n) = [.enter n (r.pages dsm)] := by
      simp [lockedEvents, hpc]
    rw [hevents]
    refine ⟨_, run_single ⟨hnone, hheld⟩, h.setCtl rfl ?_ fun m hm => ⟨rfl, ?_⟩⟩
    · simpa [Locked.after, Locked.setRegion] using henter
    · simp [Locked.after, Locked.setRegion, hm]
  · rename_i r hpc
    obtain rfl := Option.some.inj hstep
    have hevents : lockedEvents dsm s (.ret n) = [] := by simp [lockedEvents, hpc]
    rw [hevents]
    have hopened : (s.ctl n).opened = [] := by
      have halone := (h.ctl n).alone
      rwa [OneRegion, hpc] at halone
    refine ⟨l, rfl, h.setCtl_same ((h.ctl n).of_same ?_ rfl fun q k => ?_)⟩
    · simp [OneRegion, hopened]
    · simp [Ctl.locked, hpc, withKind]
  · cases hstep

omit [DecidableEq C] in
/-- A page is writable only while the program has it locked for writing. -/
theorem Inv.write_of_writable [Fintype Node] (h : Inv dsm s) {page : ℕ}
    (hj : Sigsegv.Joined (s.page page)) (hpc : (s.ctl n).pc = .running)
    (hprot : ((s.page page).node n).data.prot = .readWrite) :
    (page, LockType.write) ∈ (s.ctl n).locked dsm := by
  have hmode := ((hj.peer n).writable hprot).1
  have hp := h.page n page
  have hs := hp.status
  have hplaced := hp.placed
  unfold StatusOk at hs
  rw [hmode] at hs
  simp only [Ctl.place, hpc] at hplaced
  by_cases hex : ∃ k, (page, k) ∈ (s.ctl n).locked dsm
  · obtain ⟨k, hk⟩ := hex
    rw [(hplaced.1 k hk).2.2] at hs
    cases k with
    | read => cases hs
    | write => exact hk
  · rw [(hplaced.2 fun k hk => hex ⟨k, hk⟩).2.2] at hs
    cases hs

theorem shows_release {page : ℕ} (h : Shows dsm s v l) (hinv : Inv dsm s)
    (hstep : step nodeList dsm s (.page n page .release) = some s') :
    l.enabled (.unlock n page) ∧ Shows dsm s' v (l.after (.unlock n page)) := by
  obtain ⟨c, hmove, hstep⟩ := Option.bind_eq_some_iff.mp hstep
  obtain ⟨t, -, rfl⟩ := Option.map_eq_some_iff.mp hstep
  obtain ⟨hheld, hregion, hc⟩ := (h.ctl n).release (hinv.ctl n) hmove
  refine ⟨⟨hheld, fun region hr => ?_⟩, (h.setPage page t).setCtl rfl ?_ fun m hm => ⟨?_, rfl⟩⟩
  · rw [hregion] at hr
    cases hr
  · simpa [Locked.after, Locked.setHeld] using hc
  · simp [Locked.after, Locked.setHeld, hm]

/-- A store goes to a page that the node has locked for writing. -/
theorem shows_store [Fintype Node] {page : ℕ} {x : C} (h : Shows dsm s v l) (hinv : Inv dsm s)
    (hj : Sigsegv.Joined (s.page page))
    (hstep : step nodeList dsm s (.page n page (.store x)) = some s') :
    l.enabled (.store n page x) ∧
      Shows dsm s' (Function.update v page x) (l.after (.store n page x)) := by
  obtain ⟨c, hmove, hstep⟩ := Option.bind_eq_some_iff.mp hstep
  obtain ⟨t, ht, rfl⟩ := Option.map_eq_some_iff.mp hstep
  obtain ⟨hpc, hc⟩ := Option.ite_none_right_eq_some.mp hmove
  obtain rfl := Option.some.inj hc
  obtain ⟨r, hr, -⟩ := Option.map_eq_some_iff.mp ht
  obtain ⟨p', hp', -⟩ := Option.map_eq_some_iff.mp hr
  obtain ⟨-, hprot, -⟩ := Sigsegv.store_eq_some hp'
  have hk := hinv.write_of_writable hj hpc hprot
  obtain ⟨rg, -, hregion, hmem, -⟩ := (h.ctl n).region_of_locked hpc hk
  refine ⟨⟨⟨rg.pages dsm, hregion, hmem⟩, ((h.ctl n).held page .write).mpr hk⟩, ?_, fun m => ?_⟩
  · simp [Locked.after, h.content]
  · have hctl : ((s.setPage page t).setCtl n (s.ctl n)).ctl m = s.ctl m := by
      simp [State.setCtl, State.setPage]
    rw [hctl]
    exact h.ctl m

/-- A load from a page of the region. -/
theorem shows_load {page : ℕ} (h : Shows dsm s v l)
    (hok : oneRegion dsm s (.page n page .load) = true)
    (hv : ∀ k, (page, k) ∈ (s.ctl n).locked dsm → ((s.page page).node n).data.content = v page)
    (hstep : step nodeList dsm s (.page n page .load) = some s') :
    l.enabled (.load n page ((s.page page).node n).data.content) ∧ Shows dsm s' v l := by
  obtain ⟨c, hmove, -⟩ := Option.bind_eq_some_iff.mp hstep
  obtain ⟨hpc, -⟩ := Option.ite_none_right_eq_some.mp hmove
  obtain ⟨r, hr, hp⟩ : ∃ r ∈ (s.ctl n).opened, page ∈ r.pages dsm := by
    simpa [oneRegion] using hok
  obtain ⟨hopened, hregion⟩ := (h.ctl n).region_of_mem (Or.inl hpc) hr
  rw [(load_step hstep).1]
  refine ⟨⟨⟨_, hregion, hp⟩, ?_⟩, h⟩
  rw [h.content]
  refine hv r.kind ?_
  rw [locked_of_opened hpc hopened]
  exact mem_withKind.mpr ⟨hp, rfl⟩

theorem shows_page [Fintype Node] {page : ℕ} {a : Sigsegv.Action C} (h : Shows dsm s v l)
    (hinv : Inv dsm s) (hj : Sigsegv.Joined (s.page page))
    (hok : oneRegion dsm s (.page n page a) = true)
    (hv : a = .load → ∀ k, (page, k) ∈ (s.ctl n).locked dsm →
      ((s.page page).node n).data.content = v page)
    (hstep : step nodeList dsm s (.page n page a) = some s') :
    ∃ l', Network.run Locked.step l (lockedEvents dsm s (.page n page a)) = some l' ∧
      Shows dsm s' (fun q => lastStore q (v q) (.page n page a)) l' := by
  -- only a store changes what the last stores have left
  have hsame : (∀ x, a ≠ .store x) → (fun q => lastStore q (v q) (.page n page a)) = v := by
    intro ha
    funext q
    cases a <;> simp_all [lastStore, Sigsegv.lastStore]
  by_cases hrelease : a = .release
  · subst hrelease
    rw [hsame (by simp)]
    obtain ⟨he, hs'⟩ := shows_release h hinv hstep
    exact ⟨_, run_single he, hs'⟩
  by_cases hload : a = .load
  · subst hload
    rw [hsame (by simp)]
    obtain ⟨he, hs'⟩ := shows_load h hok (hv rfl) hstep
    exact ⟨_, run_single he, hs'⟩
  by_cases hstore : ∃ x, a = .store x
  · obtain ⟨x, rfl⟩ := hstore
    obtain ⟨he, hs'⟩ := shows_store h hinv hj hstep
    refine ⟨_, run_single he, ?_⟩
    have hv' : (fun q => lastStore q (v q) (.page n page (.store x) : Event Node C)) =
        Function.update v page x := by
      funext q
      by_cases hq : q = page
      · subst hq
        simp [lastStore, Sigsegv.lastStore]
      · simp [lastStore, hq, Ne.symm hq]
    rw [hv']
    exact hs'
  · have hevents : lockedEvents dsm s (.page n page a) = [] := by
      cases a <;> simp_all [lockedEvents]
    rw [hevents, hsame fun x hx => hstore ⟨x, hx⟩]
    obtain ⟨c, hmove, hstep⟩ := Option.bind_eq_some_iff.mp hstep
    obtain ⟨t, -, rfl⟩ := Option.map_eq_some_iff.mp hstep
    exact ⟨l, rfl, (h.setPage page t).setCtl_same ((h.ctl n).pageMove hrelease hmove)⟩

/-- Every step of the program is a step of the machine with locks. -/
theorem shows_step [Fintype Node] {e : Event Node C} (h : Shows dsm s v l) (hinv : Inv dsm s)
    (hj : ∀ page, Sigsegv.Joined (s.page page)) (hok : oneRegion dsm s e = true)
    (hv : ∀ i page k, e = .page i page .load → (page, k) ∈ (s.ctl i).locked dsm →
      ((s.page page).node i).data.content = v page)
    (hstep : step nodeList dsm s e = some s') :
    ∃ l', Network.run Locked.step l (lockedEvents dsm s e) = some l' ∧
      Shows dsm s' (fun q => lastStore q (v q) e) l' := by
  cases e with
  | lockRegion n r => exact ⟨l, rfl, shows_lockRegion h hok hstep⟩
  | unlockRegion n r =>
    obtain ⟨he, hs'⟩ := shows_unlockRegion h hok hstep
    exact ⟨_, run_single he, hs'⟩
  | page n page a =>
    exact shows_page h hinv (hj page) hok (fun ha k => hv n page k (by rw [ha])) hstep
  | next n => exact shows_next h hinv hj hstep
  | ret n => exact shows_ret h hinv hstep
  | deliver page m =>
    obtain ⟨t, -, rfl⟩ := Option.map_eq_some_iff.mp hstep
    exact ⟨l, rfl, h.setPage page t⟩

end Step

/-! ## Runs -/

section Run

variable {Node C : Type} [DecidableEq Node] [DecidableEq C] {nodeList : Node → List Node}
  {dsm : BitVec 64} {s s' : State Node C}

omit [DecidableEq Node] [DecidableEq C] in
/-- A program that locks one region at a time is bracketed. -/
theorem bracketed_of_oneRegion {e : Event Node C} (h : oneRegion dsm s e = true) :
    bracketed dsm s e = true := by
  cases e with
  | lockRegion n r =>
    obtain ⟨-, hlocked⟩ : (s.ctl n).opened = [] ∧ (s.ctl n).locked dsm = [] := by
      simpa [oneRegion] using h
    simp [bracketed, hlocked]
  | unlockRegion n r => exact h
  | _ => rfl

omit [DecidableEq C] in
theorem shows_initState (o : Node) (content : ℕ → Node → C) :
    Shows dsm (initState o content) (fun page => content page o)
      (Locked.init fun page => content page o) where
  content := rfl
  ctl := fun _ => ⟨by simp [OneRegion, initState], by simp [Locked.init, initState, Ctl.locked,
    openedPages], rfl⟩

/-- A run of the program is a run of the machine with locks. -/
theorem shows_run [Fintype Node] (hlist : ∀ n m, m ∈ nodeList n ↔ m ≠ n) {o : Node}
    {content : ℕ → Node → C} {es : List (Event Node C)}
    (hrun : Network.run (step nodeList dsm) (initState o content) es = some s)
    (hok : Network.Meets (step nodeList dsm) (fun s e => (oneRegion dsm s e &&
      onPage (fun t x => Sigsegv.lockInOrder t x && Sigsegv.upToDate t x) s e) = true)
      (initState o content) es) :
    ∃ l, Network.run Locked.step (Locked.init fun page => content page o)
        (lockedRun nodeList dsm (initState o content) es) = some l ∧
      Shows dsm s (fun page => es.foldl (lastStore page) (content page o)) l := by
  refine Network.run_translate_history
    (R := fun es s l => Shows dsm s (fun page => es.foldl (lastStore page) (content page o)) l)
    (fun es s l e s' hrun hok h he hstep => ?_) (shows_initState o content) hok hrun
  obtain ⟨hone, -⟩ := Bool.and_eq_true_iff.mp he
  have hbracketed : Network.Meets (step nodeList dsm) (fun s e => (bracketed dsm s e &&
      onPage (fun t x => Sigsegv.lockInOrder t x && Sigsegv.upToDate t x) s e) = true)
      (initState o content) es := by
    refine hok.mono fun _ _ hse => ?_
    obtain ⟨h₁, h₂⟩ := Bool.and_eq_true_iff.mp hse
    exact Bool.and_eq_true_iff.mpr ⟨bracketed_of_oneRegion h₁, h₂⟩
  have hinv := inv_run hrun (hbracketed.mono fun _ _ hse => (Bool.and_eq_true_iff.mp hse).1)
  have hj := joined_page hrun (hbracketed.mono fun _ _ hse => ?_)
  · simp only [List.foldl_append, List.foldl_cons, List.foldl_nil]
    refine shows_step h hinv hj hone (fun i page k hload hk => ?_) hstep
    subst hload
    exact content_at_load hlist hrun hbracketed hstep hk
  · -- the condition on the page locks is part of the one on the pages
    obtain ⟨-, hpages⟩ := Bool.and_eq_true_iff.mp hse
    refine List.all_eq_true.mpr fun x hx => ?_
    exact (Bool.and_eq_true_iff.mp (List.all_eq_true.mp hpages x hx)).1

omit [DecidableEq Node] [DecidableEq C] in
/-- A page that some node may write to is in a region that it has locked for writing. -/
theorem Shows.opened_of_writes {v : ℕ → C} {l : Locked Node ℕ C} (h : Shows dsm s v l)
    (hinv : Inv dsm s) {n : Node} {page : ℕ} (hw : l.Writes n page) :
    ∃ r ∈ (s.ctl n).opened, r.kind = .write ∧ page ∈ r.pages dsm := by
  obtain ⟨⟨region, hregion, hp⟩, hheld⟩ := hw
  rw [(h.ctl n).region, Option.map_eq_some_iff] at hregion
  obtain ⟨r, hr, rfl⟩ := hregion
  have hmem : r ∈ (s.ctl n).opened := List.mem_of_mem_head? hr
  refine ⟨r, hmem, ?_, hp⟩
  have hk : (page, r.kind) ∈ (s.ctl n).locked dsm :=
    List.mem_append_left _ (List.mem_flatMap.mpr ⟨r, hmem, mem_withKind.mpr ⟨hp, rfl⟩⟩)
  exact (hinv.ctl n).kind_unique hk (((h.ctl n).held page .write).mp hheld)

/-- A run of the program is a run of the machine with transactions. -/
theorem transactions_run [Fintype Node] (hlist : ∀ n m, m ∈ nodeList n ↔ m ≠ n) {o : Node}
    {content : ℕ → Node → C} {es : List (Event Node C)}
    (hrun : Network.run (step nodeList dsm) (initState o content) es = some s)
    (hok : Network.Meets (step nodeList dsm) (fun s e => (oneRegion dsm s e &&
      onPage (fun t x => Sigsegv.lockInOrder t x && Sigsegv.upToDate t x) s e) = true)
      (initState o content) es) :
    ∃ l t, Shows dsm s (fun page => es.foldl (lastStore page) (content page o)) l ∧
      Transactions.Follows l t ∧ Inv dsm s ∧
      Transactions.serialRun (fun page => content page o)
        (Transactions.sections (lockedRun nodeList dsm (initState o content) es)) =
          some t.content := by
  obtain ⟨l, hl, h⟩ := shows_run hlist hrun hok
  have hinv : Inv dsm s := inv_run hrun (hok.mono fun _ _ hse =>
    bracketed_of_oneRegion (Bool.and_eq_true_iff.mp hse).1)
  obtain ⟨t, ht, hf⟩ := Transactions.follows_run (Transactions.follows_init _) hl
  exact ⟨l, t, h, hf, hinv, Transactions.serial_run ht⟩

omit [DecidableEq Node] [DecidableEq C] in
/-- Outside the regions that are locked for writing everything has been committed. -/
theorem Shows.committed {v : ℕ → C} {l : Locked Node ℕ C} {t : Transactions.Memory Node ℕ C}
    (h : Shows dsm s v l) (hf : Transactions.Follows l t) (hinv : Inv dsm s) {page : ℕ}
    (hpage : ∀ n, ∀ r ∈ (s.ctl n).opened, r.kind = .write → page ∉ r.pages dsm) :
    t.content page = v page := by
  rw [hf.rest page fun n hw => ?_, h.content]
  obtain ⟨r, hr, hkind, hp⟩ := h.opened_of_writes hinv hw
  exact hpage n r hr hkind hp

/-- Regions are transactions: in every run of all nodes and pages in which every node locks one
region at a time and loads from its pages, the page locks hand the lock over in order and no node
relies on its copy of a page while an `INVALIDATION` of it is in flight, the regions that have been
unlocked can be run one after the other as a whole, in the order in which they were unlocked. Every
load finds what it has found, and in the end the memory holds what the last stores have left, except
in a region that is still locked for writing. -/
theorem regions_are_serial [Fintype Node] (hlist : ∀ n m, m ∈ nodeList n ↔ m ≠ n) {o : Node}
    {content : ℕ → Node → C} {es : List (Event Node C)}
    (hrun : Network.run (step nodeList dsm) (initState o content) es = some s)
    (hok : Network.Meets (step nodeList dsm) (fun s e => (oneRegion dsm s e &&
      onPage (fun t x => Sigsegv.lockInOrder t x && Sigsegv.upToDate t x) s e) = true)
      (initState o content) es) :
    ∃ memory, Transactions.serialRun (fun page => content page o)
        (Transactions.sections (lockedRun nodeList dsm (initState o content) es)) = some memory ∧
      ∀ page, (∀ n, ∀ r ∈ (s.ctl n).opened, r.kind = .write → page ∉ r.pages dsm) →
        memory page = es.foldl (lastStore page) (content page o) := by
  obtain ⟨l, t, h, hf, hinv, hserial⟩ := transactions_run hlist hrun hok
  exact ⟨t.content, hserial, fun page hpage => h.committed hf hinv hpage⟩

end Run

/-- The node `b` stores `new` in a region, and then the node `a` loads it in another one. -/
def bothRegions {Node C : Type} (a b : Node) (old new : C) : List (Event Node C) :=
  loadProgram a b old new ++ [.page a 1 .load, .unlockRegion a (bothPages .read)]

theorem regions_are_serial_bothRegions :
    ∃ s memory, Network.run (step (fun n => [n + 1]) 0x10000) (initState 0 fun _ _ => 0)
        (bothRegions (0 : Fin 2) 1 0 5) = some s ∧
      Transactions.serialRun (fun _ => 0) [((1 : Fin 2), [.store 1 5]), (0, [.load 1 5])] =
        some memory ∧
      memory 1 = (bothRegions (0 : Fin 2) 1 0 5).foldl (lastStore 1) 0 := by
  obtain ⟨s, hrun, hopened⟩ : ∃ s, Network.run (step (fun n => [n + 1]) 0x10000)
      (initState 0 fun _ _ => 0) (bothRegions (0 : Fin 2) 1 0 5) = some s ∧
      ∀ n, (s.ctl n).opened = [] := ⟨_, rfl, by decide⟩
  obtain ⟨memory, hserial, hmemory⟩ := regions_are_serial (by decide) hrun (by decide)
  have hsections : Transactions.sections (lockedRun (fun n => [n + 1]) 0x10000
      (initState 0 fun _ _ => 0) (bothRegions (0 : Fin 2) 1 0 5)) =
      [(1, [.store 1 5]), (0, [.load 1 5])] := by decide
  rw [hsections] at hserial
  exact ⟨s, memory, hrun, hserial, hmemory 1 fun n r hr => by simp [hopened n] at hr⟩

end Dsm.System
