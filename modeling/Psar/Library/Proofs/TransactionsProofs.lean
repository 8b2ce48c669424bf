import Psar.Library.Transactions
import Psar.Library.Proofs.NetworkProofs

/-!
# Proofs: locked regions as transactions

Every run with locks is a run with transactions: a section sees in its region what the sections
before it have left there and what it has stored itself, and when it is left nothing has changed in
the region. And every run with transactions is a run of one section after the other.
-/

namespace Transactions

variable {N P C : Type} [DecidableEq N] [DecidableEq P] [DecidableEq C] {s s' : Locked N P C}
  {t : Memory N P C} {n m : N} {p q : P}

/-! ## The machine with locks -/

omit [DecidableEq C] in
theorem step_eq_some {e : Event N P C} : s.step e = some s' ↔ s.enabled e ∧ s' = s.after e := by
  unfold Locked.step
  split_ifs with h
  · simp [h, eq_comm]
  · simp [h]

omit [DecidableEq C] in
theorem held_setHeld (k : Option Kind) :
    (s.setHeld n p k).held m q = if m = n ∧ q = p then k else s.held m q := by
  by_cases hm : m = n
  · subst hm
    by_cases hq : q = p
    · subst hq
      simp [Locked.setHeld]
    · simp [Locked.setHeld, hq]
  · simp [Locked.setHeld, hm]

omit [DecidableEq N] [DecidableEq P] [DecidableEq C] in
/-- Who has a page locked keeps all others from writing to it. -/
theorem Locked.Compatible.not_writes (h : s.Compatible) (hn : s.held n p ≠ none) (hm : m ≠ n) :
    ¬ s.Writes m p := by
  rintro ⟨-, hw⟩
  obtain ⟨k, hk⟩ := Option.ne_none_iff_exists'.mp hn
  obtain ⟨-, hread⟩ := h n m p k .write hm hk hw
  cases hread

omit [DecidableEq C] in
theorem compatible_lock (h : s.Compatible) {k : Kind} (hadmits : s.admits n p k) :
    (s.setHeld n p (some k)).Compatible := by
  intro a b q k₁ k₂ hba ha hb
  rw [held_setHeld] at ha hb
  by_cases hanp : a = n ∧ q = p
  · obtain ⟨rfl, rfl⟩ := hanp
    rw [if_pos ⟨rfl, rfl⟩] at ha
    rw [if_neg fun h => hba h.1] at hb
    obtain rfl := Option.some.inj ha
    exact hadmits b hba k₂ hb
  · rw [if_neg hanp] at ha
    by_cases hbnp : b = n ∧ q = p
    · obtain ⟨rfl, rfl⟩ := hbnp
      rw [if_pos ⟨rfl, rfl⟩] at hb
      obtain rfl := Option.some.inj hb
      exact (hadmits a (Ne.symm hba) k₁ ha).symm
    · rw [if_neg hbnp] at hb
      exact h a b q k₁ k₂ hba ha hb

omit [DecidableEq C] in
theorem compatible_unlock (h : s.Compatible) : (s.setHeld n p none).Compatible := by
  intro a b q k₁ k₂ hba ha hb
  rw [held_setHeld] at ha hb
  split_ifs at ha hb
  exact h a b q k₁ k₂ hba ha hb

/-! ## The steps -/

omit [DecidableEq N] [DecidableEq P] [DecidableEq C] in
theorem Follows.sec_of_region (h : Follows s t) {region : List P} (hr : s.region n = some region) :
    ∃ x, t.sec n = some x ∧ x.region = region :=
  Option.map_eq_some_iff.mp ((h.region n).symm.trans hr)

omit [DecidableEq N] [DecidableEq P] [DecidableEq C] in
theorem Follows.region_of_sec (h : Follows s t) {x : Section P C} (hx : t.sec n = some x) :
    s.region n = some x.region := by
  rw [h.region, hx]
  rfl

omit [DecidableEq N] [DecidableEq P] [DecidableEq C] in
theorem Follows.sec_of_none (h : Follows s t) (hr : s.region n = none) : t.sec n = none :=
  Option.map_eq_none_iff.mp ((h.region n).symm.trans hr)

omit [DecidableEq N] [DecidableEq P] [DecidableEq C] in
/-- In a region that `n` has locked to read, and in every region before the section is entered, the
memory is as it was committed. -/
theorem Follows.committed (h : Follows s t) (hp : s.held n p ≠ none) (hn : ¬ s.Writes n p) :
    t.content p = s.content p := by
  refine h.rest p fun m => ?_
  by_cases hm : m = n
  · subst hm
    exact hn
  · exact h.compatible.not_writes hp hm

omit [DecidableEq C] in
/-- Locking and unlocking outside the sections changes nothing. -/
theorem Follows.setHeld (h : Follows s t) {k : Option Kind}
    (hcompatible : (s.setHeld n p k).Compatible)
    (hout : ∀ region, s.region n = some region → p ∉ region) : Follows (s.setHeld n p k) t := by
  have hsame : ∀ m q region, s.region m = some region → q ∈ region →
      (s.setHeld n p k).held m q = s.held m q := by
    intro m q region hr hq
    rw [held_setHeld, if_neg]
    rintro ⟨rfl, rfl⟩
    exact hout region hr hq
  refine ⟨hcompatible, fun m region hr q hq => ?_, h.region, h.before, h.copy, fun q hq => ?_⟩
  · rw [hsame m q region hr hq]
    exact h.held m region hr q hq
  · refine h.rest q fun m hm => hq m ?_
    obtain ⟨⟨region, hr, hmem⟩, hw⟩ := hm
    exact ⟨⟨region, hr, hmem⟩, (hsame m q region hr hmem).trans hw⟩

theorem follows_enter (h : Follows s t) {region : List P} (hn : s.region n = none)
    (hheld : ∀ p ∈ region, s.held n p ≠ none) :
    ∃ t', t.step (.enter n region) = some t' ∧ Follows (s.setRegion n (some region)) t' := by
  have hsec := h.sec_of_none hn
  have hcommitted : ∀ p ∈ region, t.content p = s.content p := by
    refine fun p hp => h.committed (hheld p hp) ?_
    rintro ⟨⟨r, hr, -⟩, -⟩
    rw [hn] at hr
    cases hr
  refine ⟨t.setSec n (some ⟨region, t.content, t.content⟩), by simp [Memory.step, hsec], ?_⟩
  refine ⟨h.compatible, fun m r hr q hq => ?_, fun m => ?_, fun m x hx => ?_, fun m x hx q hq => ?_,
    fun q hq => h.rest q fun m hm => hq m ?_⟩
  · by_cases hm : m = n
    · subst hm
      simp only [Locked.setRegion, Function.update_self, Option.some.injEq] at hr
      subst hr
      exact hheld q hq
    · simp only [Locked.setRegion, Function.update_of_ne hm] at hr
      exact h.held m r hr q hq
  · by_cases hm : m = n
    · subst hm
      simp [Locked.setRegion, Memory.setSec]
    · simpa [Locked.setRegion, Memory.setSec, hm] using h.region m
  · by_cases hm : m = n
    · subst hm
      simp only [Memory.setSec, Function.update_self, Option.some.injEq] at hx
      subst hx
      exact fun q _ => rfl
    · simp only [Memory.setSec, Function.update_of_ne hm] at hx
      exact h.before m x hx
  · by_cases hm : m = n
    · subst hm
      simp only [Memory.setSec, Function.update_self, Option.some.injEq] at hx
      subst hx
      exact hcommitted q hq
    · simp only [Memory.setSec, Function.update_of_ne hm] at hx
      exact h.copy m x hx q hq
  · obtain ⟨⟨r, hr, hmem⟩, hw⟩ := hm
    have hne : m ≠ n := by
      rintro rfl
      rw [hn] at hr
      cases hr
    exact ⟨⟨r, by simpa [Locked.setRegion, hne] using hr, hmem⟩, hw⟩

theorem follows_load (h : Follows s t) {region : List P} (hn : s.region n = some region)
    (hp : p ∈ region) : t.step (.load n p (s.content p)) = some t := by
  obtain ⟨x, hx, rfl⟩ := h.sec_of_region hn
  simp [Memory.step, hx, hp, h.copy n x hx p hp]

theorem follows_store (h : Follows s t) {region : List P} (hn : s.region n = some region)
    (hp : p ∈ region) (hw : s.held n p = some .write) (c : C) :
    ∃ t', t.step (.store n p c) = some t' ∧
      Follows { s with content := Function.update s.content p c } t' := by
  obtain ⟨x, hx, rfl⟩ := h.sec_of_region hn
  refine ⟨t.setSec n (some { x with copy := Function.update x.copy p c }),
    by simp [Memory.step, hx, hp], ?_⟩
  refine ⟨h.compatible, h.held, fun m => ?_, fun m y hy => ?_, fun m y hy q hq => ?_,
    fun q hq => ?_⟩
  · rw [h.region]
    by_cases hm : m = n
    · subst hm
      simp [Memory.setSec, hx]
    · simp [Memory.setSec, hm]
  · by_cases hm : m = n
    · subst hm
      simp only [Memory.setSec, Function.update_self, Option.some.injEq] at hy
      subst hy
      exact h.before m x hx
    · simp only [Memory.setSec, Function.update_of_ne hm] at hy
      exact h.before m y hy
  · by_cases hm : m = n
    · subst hm
      simp only [Memory.setSec, Function.update_self, Option.some.injEq] at hy
      subst hy
      by_cases hqp : q = p
      · subst hqp
        simp
      · simpa [hqp] using h.copy m x hx q hq
    · -- another process does not have `p` locked
      simp only [Memory.setSec, Function.update_of_ne hm] at hy
      have hqp : q ≠ p := by
        rintro rfl
        obtain ⟨k, hk⟩ := Option.ne_none_iff_exists'.mp (h.held m _ (h.region_of_sec hy) q hq)
        obtain ⟨-, hread⟩ := h.compatible m n q k .write (Ne.symm hm) hk hw
        cases hread
      exact (h.copy m y hy q hq).trans (Function.update_of_ne hqp _ _).symm
  · have hqp : q ≠ p := by
      rintro rfl
      exact hq n ⟨⟨_, hn, hp⟩, hw⟩
    exact (h.rest q hq).trans (Function.update_of_ne hqp _ _).symm

theorem follows_exit (h : Follows s t) (hn : s.region n ≠ none) :
    ∃ t', t.step (.exit n) = some t' ∧ Follows (s.setRegion n none) t' := by
  obtain ⟨region, hr⟩ := Option.ne_none_iff_exists'.mp hn
  obtain ⟨x, hx, rfl⟩ := h.sec_of_region hr
  have hvalid := h.before n x hx
  -- in its region the section commits what the memory already holds
  have hcommit : ∀ p ∈ x.region, x.commit t.content p = s.content p := fun p hp => by
    rw [Section.commit, if_pos hp, h.copy n x hx p hp]
  refine ⟨{ t.setSec n none with content := x.commit t.content },
    by simp [Memory.step, hx, hvalid], ?_⟩
  refine ⟨h.compatible, fun m r hm q hq => ?_, fun m => ?_, fun m y hy q hq => ?_,
    fun m y hy q hq => ?_, fun q hq => ?_⟩
  · by_cases hmn : m = n
    · subst hmn
      simp [Locked.setRegion] at hm
    · simp only [Locked.setRegion, Function.update_of_ne hmn] at hm
      exact h.held m r hm q hq
  · by_cases hmn : m = n
    · subst hmn
      simp [Locked.setRegion, Memory.setSec]
    · simpa [Locked.setRegion, Memory.setSec, hmn] using h.region m
  · by_cases hmn : m = n
    · subst hmn
      simp [Memory.setSec] at hy
    · simp only [Memory.setSec, Function.update_of_ne hmn] at hy
      rw [h.before m y hy q hq]
      show t.content q = x.commit t.content q
      by_cases hqx : q ∈ x.region
      · -- both have the page locked, and so neither of them has stored to it
        have hheld := h.held m _ (h.region_of_sec hy) q hq
        rw [hcommit q hqx]
        refine h.committed (h.held n _ hr q hqx) ?_
        exact h.compatible.not_writes hheld (Ne.symm hmn)
      · rw [Section.commit, if_neg hqx]
  · by_cases hmn : m = n
    · subst hmn
      simp [Memory.setSec] at hy
    · simp only [Memory.setSec, Function.update_of_ne hmn] at hy
      exact h.copy m y hy q hq
  · by_cases hqx : q ∈ x.region
    · exact hcommit q hqx
    · show x.commit t.content q = s.content q
      rw [Section.commit, if_neg hqx]
      refine h.rest q fun m hm => ?_
      obtain ⟨⟨r, hmr, hmem⟩, hw⟩ := hm
      have hmn : m ≠ n := by
        rintro rfl
        rw [hr] at hmr
        exact hqx (by rwa [← Option.some.inj hmr] at hmem)
      exact hq m ⟨⟨r, by simpa [Locked.setRegion, hmn] using hmr, hmem⟩, hw⟩

/-- A step with locks is a step with transactions. -/
theorem follows_step (h : Follows s t) {e : Event N P C} (hstep : s.step e = some s') :
    ∃ t', t.step e = some t' ∧ Follows s' t' := by
  obtain ⟨he, rfl⟩ := step_eq_some.mp hstep
  cases e with
  | lock n p k =>
    refine ⟨t, rfl, h.setHeld (compatible_lock h.compatible he.2) fun region hr hp => ?_⟩
    exact h.held n region hr p hp he.1
  | unlock n p => exact ⟨t, rfl, h.setHeld (compatible_unlock h.compatible) he.2⟩
  | enter n region => exact follows_enter h he.1 he.2
  | load n p c =>
    obtain ⟨⟨region, hr, hp⟩, rfl⟩ := he
    exact ⟨t, follows_load h hr hp, h⟩
  | store n p c =>
    obtain ⟨⟨region, hr, hp⟩, hw⟩ := he
    exact follows_store h hr hp hw c
  | exit n => exact follows_exit h he

omit [DecidableEq N] [DecidableEq P] [DecidableEq C] in
theorem follows_init (content : P → C) :
    Follows (Locked.init content : Locked N P C) (Memory.init content) := by
  refine ⟨?_, ?_, fun _ => rfl, ?_, ?_, fun _ _ => rfl⟩ <;>
    simp [Locked.Compatible, Locked.init, Memory.init]

/-- Every run with locks is a run with transactions. -/
theorem follows_run {es : List (Event N P C)} (h : Follows s t)
    (hrun : Network.run Locked.step s es = some s') :
    ∃ t', Network.run Memory.step t es = some t' ∧ Follows s' t' := by
  induction es generalizing s t with
  | nil =>
    cases hrun
    exact ⟨t, rfl, h⟩
  | cons e es ih =>
    obtain ⟨s₁, hs₁, hrun⟩ := Network.run_cons_eq_some.mp hrun
    obtain ⟨t₁, ht₁, h₁⟩ := follows_step h hs₁
    obtain ⟨t', ht', h'⟩ := ih h₁ hrun
    exact ⟨t', Network.run_cons_eq_some.mpr ⟨t₁, ht₁, ht'⟩, h'⟩

/-! ## One section after the other -/

section Serial

variable {content f g f' : P → C} {h : History N P C} {as : List (Access P C)}

omit [DecidableEq N] in
/-- What a section does depends on its pages only, and it changes no others. -/
theorem run_access_congr {S : List P} (hin : ∀ a ∈ as, a.page ∈ S) (heq : ∀ p ∈ S, f p = g p)
    (hrun : Network.run Access.step f as = some f') :
    Network.run Access.step g as = some fun p => if p ∈ S then f' p else g p := by
  induction as generalizing f g with
  | nil =>
    obtain rfl := Option.some.inj hrun
    refine congrArg some (funext fun p => ?_)
    by_cases hp : p ∈ S
    · rw [if_pos hp, heq p hp]
    · rw [if_neg hp]
  | cons a as ih =>
    obtain ⟨ha, has⟩ := List.forall_mem_cons.mp hin
    obtain ⟨f₁, hf₁, hrun⟩ := Network.run_cons_eq_some.mp hrun
    rw [Network.run_cons_eq_some]
    cases a with
    | load p c =>
      obtain ⟨hc, hf⟩ := Option.ite_none_right_eq_some.mp hf₁
      obtain rfl := Option.some.inj hf
      exact ⟨g, if_pos (hc.trans (heq p ha)), ih has heq hrun⟩
    | store p c =>
      obtain rfl := Option.some.inj hf₁
      refine ⟨Function.update g p c, rfl, ?_⟩
      have heq' : ∀ q ∈ S, Function.update f p c q = Function.update g p c q := by
        intro q hq
        by_cases hqp : q = p
        · subst hqp
          simp
        · simp [hqp, heq q hq]
      rw [ih has heq' hrun]
      refine congrArg some (funext fun q => ?_)
      by_cases hq : q ∈ S
      · rw [if_pos hq, if_pos hq]
      · have hqp : q ≠ p := by
          rintro rfl
          exact hq ha
        rw [if_neg hq, if_neg hq, Function.update_of_ne hqp]

omit [DecidableEq N] in
/-- A section whose region has not changed does to the memory what it has done to its copy. -/
theorem run_commit {x : Section P C} (hin : ∀ a ∈ as, a.page ∈ x.region)
    (hrun : Network.run Access.step x.before as = some x.copy) (hvalid : x.Valid f) :
    Network.run Access.step f as = some (x.commit f) :=
  run_access_congr hin hvalid hrun

theorem serial_access (hs : Serial content h t) {x : Section P C} (hx : t.sec n = some x)
    {a : Access P C} (ha : a.page ∈ x.region) {c : P → C} (hstep : a.step x.copy = some c) :
    Serial content (h.access n a) (t.setSec n (some { x with copy := c })) := by
  refine ⟨hs.left, fun m y hy => ?_, fun m y hy b hb => ?_⟩
  · by_cases hm : m = n
    · subst hm
      simp only [Memory.setSec, Function.update_self, Option.some.injEq] at hy
      subst hy
      simp only [History.access, Function.update_self, Network.run_append, hs.opened m x hx]
      exact Network.run_cons_eq_some.mpr ⟨c, hstep, rfl⟩
    · simp only [Memory.setSec, Function.update_of_ne hm] at hy
      simpa [History.access, hm] using hs.opened m y hy
  · by_cases hm : m = n
    · subst hm
      simp only [Memory.setSec, Function.update_self, Option.some.injEq] at hy
      subst hy
      simp only [History.access, Function.update_self, List.mem_append, List.mem_singleton] at hb
      rcases hb with hb | rfl
      · exact hs.inside m x hx b hb
      · exact ha
    · simp only [Memory.setSec, Function.update_of_ne hm] at hy
      refine hs.inside m y hy b ?_
      simpa [History.access, hm] using hb

theorem serial_enter (hs : Serial content h t) (n : N) (region : List P) :
    Serial content (h.next (.enter n region))
      (t.setSec n (some ⟨region, t.content, t.content⟩)) := by
  refine ⟨hs.left, fun m y hy => ?_, fun m y hy b hb => ?_⟩
  · by_cases hm : m = n
    · subst hm
      simp only [Memory.setSec, Function.update_self, Option.some.injEq] at hy
      subst hy
      simp [History.next]
    · simp only [Memory.setSec, Function.update_of_ne hm] at hy
      simpa [History.next, hm] using hs.opened m y hy
  · by_cases hm : m = n
    · subst hm
      simp [History.next] at hb
    · simp only [Memory.setSec, Function.update_of_ne hm] at hy
      refine hs.inside m y hy b ?_
      simpa [History.next, hm] using hb

theorem serial_exit (hs : Serial content h t) {x : Section P C} (hx : t.sec n = some x)
    (hvalid : x.Valid t.content) :
    Serial content (h.next (.exit n)) { t.setSec n none with content := x.commit t.content } := by
  have hopen : ∀ m y, Function.update t.sec n none m = some y → t.sec m = some y := by
    intro m y hy
    by_cases hm : m = n
    · subst hm
      simp at hy
    · rwa [Function.update_of_ne hm] at hy
  refine ⟨?_, fun m y hy => hs.opened m y (hopen m y hy),
    fun m y hy => hs.inside m y (hopen m y hy)⟩
  have hleft := hs.left
  unfold serialRun at hleft ⊢
  simp only [History.next, List.flatMap_append, Network.run_append, hleft, Option.bind_some,
    List.flatMap_cons, List.flatMap_nil, List.append_nil]
  exact run_commit (hs.inside n x hx) (hs.opened n x hx) hvalid

theorem serial_step (hs : Serial content h t) {e : Event N P C} {t' : Memory N P C}
    (hstep : t.step e = some t') : Serial content (h.next e) t' := by
  cases e with
  | lock n p k =>
    obtain rfl := Option.some.inj hstep
    exact hs
  | unlock n p =>
    obtain rfl := Option.some.inj hstep
    exact hs
  | enter n region =>
    obtain ⟨-, heq⟩ := Option.ite_none_right_eq_some.mp hstep
    obtain rfl := Option.some.inj heq
    exact serial_enter hs n region
  | load n p c =>
    obtain ⟨x, hx, hstep⟩ := Option.bind_eq_some_iff.mp hstep
    obtain ⟨⟨hp, hc⟩, heq⟩ := Option.ite_none_right_eq_some.mp hstep
    obtain rfl := Option.some.inj heq
    have h' := serial_access hs hx (a := .load p c) hp (if_pos hc)
    have hsame : t.setSec n (some x) = t := by
      rw [Memory.setSec, ← hx, Function.update_eq_self]
    rwa [show ({ x with copy := x.copy } : Section P C) = x from rfl, hsame] at h'
  | store n p c =>
    obtain ⟨x, hx, hstep⟩ := Option.bind_eq_some_iff.mp hstep
    obtain ⟨hp, heq⟩ := Option.ite_none_right_eq_some.mp hstep
    obtain rfl := Option.some.inj heq
    exact serial_access hs hx (a := .store p c) hp rfl
  | exit n =>
    obtain ⟨x, hx, hstep⟩ := Option.bind_eq_some_iff.mp hstep
    obtain ⟨hvalid, heq⟩ := Option.ite_none_right_eq_some.mp hstep
    obtain rfl := Option.some.inj heq
    exact serial_exit hs hx hvalid

/-- The sections that have been left, run one after the other, find what they have found and leave
the memory as it is. -/
theorem serial_run {es : List (Event N P C)}
    (hrun : Network.run Memory.step (Memory.init content) es = some t) :
    serialRun content (sections es) = some t.content := by
  have hinit : Serial content History.init (Memory.init content : Memory N P C) :=
    ⟨rfl, fun n x hx => by simp [Memory.init] at hx, fun n x hx => by simp [Memory.init] at hx⟩
  have hstep : ∀ (t : Memory N P C) (h : History N P C) e t', Serial content h t → True →
      Memory.step t e = some t' → Serial content (h.next e) t' :=
    fun _ _ _ _ hs _ hstep => serial_step hs hstep
  exact (Network.run_simulation (R := fun t h => Serial content h t) hstep hinit
    (Network.meets_true _ _) hrun).left

end Serial

end Transactions
