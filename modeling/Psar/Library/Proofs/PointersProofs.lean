import Psar.Library.Pointers
import Psar.Library.Proofs.NetworkProofs

/-!
# Proofs: pointers that lead to a root

Two ways to show that pointers lead to a root: the pointers lead to another root that all its
neighbours now skip, or every pointer goes up in a bounded rank. Path reversal keeps the pointers
and the requests in flight a tree.
-/

namespace Pointers

variable {α : Type} {f g : α → α}

theorem Leads.refl (a : α) : Leads f a a := ⟨0, rfl⟩

theorem Leads.of_step {a b : α} (h : Leads f (f a) b) : Leads f a b := by
  obtain ⟨k, hk⟩ := h
  exact ⟨k + 1, hk⟩

/-- The pointers `f` lead to `c`, and `g` differs from `f` only in that what pointed to `c` points
to `d`: then `g` leads to `d`. -/
theorem Leads.retarget [DecidableEq α] {c d : α} (hg : ∀ a, a ≠ c → g a = if f a = c then d else f a)
    {a : α} (ha : a ≠ c) (h : Leads f a c) : Leads g a d := by
  obtain ⟨k, hk⟩ := h
  induction k generalizing a with
  | zero => exact absurd hk ha
  | succ k ih =>
    have hga := hg a ha
    by_cases hfa : f a = c
    · rw [if_pos hfa] at hga
      exact ⟨1, hga⟩
    · rw [if_neg hfa] at hga
      have hstep : Leads g (g a) d := by
        rw [hga]
        exact ih hfa hk
      exact hstep.of_step

/-- Pointers that go up in a rank, except at `c` where the rank is largest, lead to `c`. -/
theorem leads_of_rank {rank : α → ℕ} {c : α} (hle : ∀ a, rank a ≤ rank c)
    (hlt : ∀ a, a ≠ c → rank a < rank (f a)) (a : α) : Leads f a c := by
  -- the induction is on how far the rank of `a` is below that of `c`
  induction hn : rank c - rank a using Nat.strongRecOn generalizing a with
  | ind n ih =>
    by_cases ha : a = c
    · exact ha ▸ Leads.refl a
    · have h1 := hlt a ha
      have h2 := hle (f a)
      exact (ih (rank c - rank (f a)) (by omega) (f a) rfl).of_step

theorem Leads.trans {a b c : α} (hab : Leads f a b) (hbc : Leads f b c) : Leads f a c := by
  obtain ⟨k, rfl⟩ := hab
  obtain ⟨m, rfl⟩ := hbc
  exact ⟨m + k, Function.iterate_add_apply f m k a⟩

/-- When all elements point to `a`, it is the root. -/
theorem root_const (a : α) : Root (fun _ => a) (fun _ => True) a where
  mem := trivial
  self := rfl
  unique := fun _ _ h => h.symm
  leads := fun _ _ => ⟨1, rfl⟩

/-- Without an element that points to itself there is no root. -/
theorem not_exists_root {p : α → Prop} (h : ∀ a, f a ≠ a) : ¬ ∃ c, Root f p c :=
  fun ⟨c, hc⟩ => h c hc.self

/-! ## Heights -/

/-- Pointers that lead to a root go down in the number of steps to it. -/
theorem exists_height {c : α} (hl : ∀ a, Leads f a c) :
    ∃ height : α → ℕ, ∀ a, a ≠ c → height (f a) < height a := by
  classical
  refine ⟨fun a => Nat.find (hl a), ?_⟩
  intro a ha
  show Nat.find (hl (f a)) < Nat.find (hl a)
  obtain ⟨k, hk⟩ : ∃ k, Nat.find (hl a) = k + 1 := by
    refine Nat.exists_eq_succ_of_ne_zero fun h0 => ha ?_
    have h := Nat.find_spec (hl a)
    rwa [h0] at h
  have h := Nat.find_spec (hl a)
  rw [hk] at h
  have hle : Nat.find (hl (f a)) ≤ k := Nat.find_le h
  omega

/-- The height does not grow along a path. -/
theorem Leads.height_le {c : α} (hc : f c = c) {height : α → ℕ}
    (hh : ∀ a, a ≠ c → height (f a) < height a) {a b : α} (h : Leads f a b) :
    height b ≤ height a := by
  obtain ⟨k, rfl⟩ := h
  induction k generalizing a with
  | zero => exact le_rfl
  | succ k ih =>
    refine (ih (a := f a)).trans ?_
    by_cases ha : a = c
    · rw [ha, hc]
    · exact (hh a ha).le

/-! ## Path reversal -/

section Reversal

variable {c y r j : α}

/-- The situation in which `j` sees a request: the pointers `f` lead to `c`, the requester `y` leads
to `r`, and `r` points to `j`. -/
structure Seen (f : α → α) (c y r j : α) : Prop where
  self : f c = c
  leads : ∀ a, Leads f a c
  requester : Leads f y r
  pointer : f r = j
  ne : r ≠ c

theorem Seen.height (h : Seen f c y r j) : ∃ height : α → ℕ,
    (∀ a, a ≠ c → height (f a) < height a) ∧ height j < height r ∧ height r ≤ height y := by
  obtain ⟨height, hh⟩ := exists_height h.leads
  exact ⟨height, hh, h.pointer ▸ hh r h.ne, h.requester.height_le h.self hh⟩

/-- A request is never seen by its own requester. -/
theorem Seen.requester_ne (h : Seen f c y r j) : j ≠ y := by
  obtain ⟨height, -, h1, h2⟩ := h.height
  rintro rfl
  omega

theorem Seen.root_ne (h : Seen f c y r j) : r ≠ j := by
  obtain ⟨height, -, h1, -⟩ := h.height
  rintro rfl
  omega

variable [DecidableEq α]

theorem reverse_of_ne {a : α} (hr : a ≠ r) (hj : a ≠ j) : reverse f c y r j a = f a := by
  simp [reverse, hr, hj]

theorem reverse_self : reverse f c y r j j = y := by
  simp [reverse]

theorem Seen.reverse_root (h : Seen f c y r j) :
    reverse f c y r j r = if j = c then r else f j := by
  simp [reverse, h.root_ne]

/-- What leads to `r` still does. -/
theorem Seen.leads_root (h : Seen f c y r j) {a : α} (ha : Leads f a r) :
    Leads (reverse f c y r j) a r := by
  obtain ⟨height, hh, hjr, -⟩ := h.height
  obtain ⟨k, hk⟩ := ha
  induction k generalizing a with
  | zero => exact ⟨0, hk⟩
  | succ k ih =>
    by_cases har : a = r
    · exact har ▸ Leads.refl a
    · have hja : a ≠ j := by
        rintro rfl
        have hle := Leads.height_le h.self hh ⟨k + 1, hk⟩
        omega
      apply Leads.of_step
      rw [reverse_of_ne har hja]
      exact ih hk

/-- What leads to `j` leads to `r` now. -/
theorem Seen.leads_dest (h : Seen f c y r j) {a : α} (ha : Leads f a j) :
    Leads (reverse f c y r j) a r := by
  have hj : Leads (reverse f c y r j) j r := by
    apply Leads.of_step
    rw [reverse_self]
    exact h.leads_root h.requester
  obtain ⟨k, hk⟩ := ha
  induction k generalizing a with
  | zero => exact hk ▸ hj
  | succ k ih =>
    by_cases har : a = r
    · exact har ▸ Leads.refl a
    · by_cases haj : a = j
      · exact haj ▸ hj
      · apply Leads.of_step
        rw [reverse_of_ne har haj]
        exact ih hk

/-- Above `j`, nothing changes. -/
theorem Seen.leads_above (h : Seen f c y r j) (hjc : j ≠ c) {b : α} (hb : Leads f (f j) b) :
    Leads (reverse f c y r j) (f j) b := by
  obtain ⟨height, hh, hjr, -⟩ := h.height
  suffices hx : ∀ a, height a < height j → Leads f a b → Leads (reverse f c y r j) a b from
    hx (f j) (hh j hjc) hb
  rintro a ha ⟨k, hk⟩
  induction k generalizing a with
  | zero => exact ⟨0, hk⟩
  | succ k ih =>
    have hr : a ≠ r := by
      rintro rfl
      omega
    have hj : a ≠ j := by
      rintro rfl
      omega
    have hle : height (f a) ≤ height a := Leads.height_le h.self hh ⟨1, rfl⟩
    apply Leads.of_step
    rw [reverse_of_ne hr hj]
    exact ih (f a) (lt_of_le_of_lt hle ha) hk

/-- What leads to another element still does. -/
theorem Seen.leads_other (h : Seen f c y r j) {a b : α} (hr : b ≠ r) (hj : b ≠ j)
    (ha : Leads f a b) : Leads (reverse f c y r j) a b := by
  -- beyond `j`, the path goes on from `r`
  have habove : Leads f j b → Leads (reverse f c y r j) r b := by
    rintro ⟨k, hk⟩
    cases k with
    | zero => exact absurd hk.symm hj
    | succ k =>
      have hjc : j ≠ c := by
        rintro rfl
        exact hj ((Function.iterate_fixed h.self (k + 1)).symm.trans hk).symm
      apply Leads.of_step
      rw [h.reverse_root, if_neg hjc]
      exact h.leads_above hjc ⟨k, hk⟩
  obtain ⟨k, hk⟩ := ha
  induction k generalizing a with
  | zero => exact ⟨0, hk⟩
  | succ k ih =>
    by_cases har : a = r
    · subst har
      refine habove ⟨k, ?_⟩
      rw [← h.pointer]
      exact hk
    · by_cases haj : a = j
      · subst haj
        exact (h.leads_dest (Leads.refl a)).trans (habove ⟨k + 1, hk⟩)
      · apply Leads.of_step
        rw [reverse_of_ne har haj]
        exact ih hk

/-- After path reversal, all pointers lead to `c`, or to `r` if `j` was the root. -/
theorem Seen.leads_reverse (h : Seen f c y r j) (a : α) :
    Leads (reverse f c y r j) a (if j = c then r else c) := by
  by_cases hjc : j = c
  · rw [if_pos hjc]
    exact h.leads_dest (hjc ▸ h.leads a)
  · rw [if_neg hjc]
    exact h.leads_other h.ne.symm (Ne.symm hjc) (h.leads a)

/-! ## Requests in flight -/

section Forest

variable {father : α → Option α} {flight : List (α × α)} {att : α → Option (α × α)}

omit [DecidableEq α] in
theorem completed_some {a b : α} (h : father a = some b) : completed father att a = b := by
  simp [completed, h]

omit [DecidableEq α] in
theorem completed_att {a j y : α} (h : father a = none) (ha : att a = some (j, y)) :
    completed father att a = j := by
  simp [completed, h, ha]

omit [DecidableEq α] in
theorem completed_none {a : α} (h : father a = none) (ha : att a = none) :
    completed father att a = a := by
  simp [completed, h, ha]

variable [Fintype α]

/-- The pointers lead to the root from the start. -/
theorem attached_of_root {f : α → α} {c : α} (hf : Root f (fun _ => True) c) :
    Attached (fun a => if f a = a then none else some (f a)) [] (fun _ => none) c := by
  have hcompleted : completed (fun a => if f a = a then none else some (f a)) (fun _ => none) = f := by
    funext a
    by_cases ha : f a = a <;> simp [completed, ha]
  refine ⟨by simp, ⟨by simp [hf.self], rfl⟩, ?_, by simp, by simp⟩
  intro a
  rw [hcompleted]
  exact hf.leads a trivial

theorem forest_of_root {f : α → α} {c : α} (hf : Root f (fun _ => True) c) :
    Forest (fun a => if f a = a then none else some (f a)) [] :=
  ⟨_, c, attached_of_root hf⟩

/-- The requests in flight have no order. -/
theorem Attached.perm {c : α} {flight' : List (α × α)} (h : Attached father flight att c)
    (hp : flight.Perm flight') : Attached father flight' att c :=
  ⟨h.free, h.root, h.leads, h.requester, fun q => (hp.count_eq q).symm.trans (h.count q)⟩

theorem Forest.perm {flight' : List (α × α)} (h : Forest father flight)
    (hp : flight.Perm flight') : Forest father flight' := by
  obtain ⟨att, c, hatt⟩ := h
  exact ⟨att, c, hatt.perm hp⟩

/-- A request in flight belongs to the root of one tree. -/
theorem Attached.seen {c : α} (h : Attached father flight att c) {j y : α}
    (hq : (j, y) ∈ flight) : ∃ r, att r = some (j, y) := by
  have hpos : 0 < flight.count (j, y) := List.count_pos_iff.mpr hq
  rw [h.count] at hpos
  obtain ⟨r, -, hr⟩ := Finset.exists_ne_zero_of_sum_ne_zero (Nat.pos_iff_ne_zero.mp hpos)
  refine ⟨r, ?_⟩
  by_contra hne
  exact hr (if_neg hne)

theorem Attached.seen_of_att {c r j y : α} (h : Attached father flight att c)
    (hr : att r = some (j, y)) : Seen (completed father att) c y r j := by
  refine ⟨completed_none h.root.1 h.root.2, h.leads, h.requester r j y hr,
    completed_att (h.free r (by simp [hr])) hr, ?_⟩
  rintro rfl
  exact absurd (h.root.2.symm.trans hr) (by simp)

/-- A request is never handled by its own requester. -/
theorem Forest.requester_ne (h : Forest father flight) {j y : α} (hq : (j, y) ∈ flight) :
    j ≠ y := by
  obtain ⟨att, c, hatt⟩ := h
  obtain ⟨r, hr⟩ := hatt.seen hq
  exact (hatt.seen_of_att hr).requester_ne

/-- Only an element without a father has a request attached to it. -/
theorem Attached.att_of_father {c i b : α} (h : Attached father flight att c)
    (hi : father i = some b) : att i = none := by
  by_contra hne
  exact absurd (hi.symm.trans (h.free i hne)) (by simp)

/-! ### Sending a request -/

omit [Fintype α] in
/-- The request stands for the pointer. -/
theorem completed_send (att : α → Option (α × α)) {i b : α} (hi : father i = some b) :
    completed (Function.update father i none) (Function.update att i (some (b, i))) =
      completed father att := by
  funext a
  by_cases ha : a = i
  · subst ha
    simp [completed, hi]
  · simp [completed, ha]

/-- An element sends a request to its father and forgets it. -/
theorem Attached.send {c : α} (hatt : Attached father flight att c) {i b : α}
    (hi : father i = some b) :
    Attached (Function.update father i none) ((b, i) :: flight)
      (Function.update att i (some (b, i))) c := by
  have hatti := hatt.att_of_father hi
  have hcompleted := completed_send att hi
  have hic : i ≠ c := by
    rintro rfl
    exact absurd (hi.symm.trans hatt.root.1) (by simp)
  refine ⟨?_, ?_, ?_, ?_, ?_⟩
  · intro a ha
    by_cases hai : a = i
    · simp [hai]
    · rw [Function.update_of_ne hai] at ha ⊢
      exact hatt.free a ha
  · rw [Function.update_of_ne hic.symm, Function.update_of_ne hic.symm]
    exact hatt.root
  · rw [hcompleted]
    exact hatt.leads
  · intro r j y hr
    rw [hcompleted]
    by_cases hri : r = i
    · subst hri
      simp only [Function.update_self, Option.some.injEq, Prod.mk.injEq] at hr
      exact hr.2 ▸ Leads.refl r
    · rw [Function.update_of_ne hri] at hr
      exact hatt.requester r j y hr
  · intro q
    have hsum := Network.sum_update (fun _ x => if x = some q then 1 else 0) att i (some (b, i))
    simp only [hatti, reduceCtorEq, if_false, Nat.add_zero] at hsum
    rw [hsum, List.count_cons, hatt.count q]
    simp

theorem Forest.send (h : Forest father flight) {i b : α} (hi : father i = some b) :
    Forest (Function.update father i none) ((b, i) :: flight) := by
  obtain ⟨att, c, hatt⟩ := h
  exact ⟨_, c, hatt.send hi⟩

/-! ### Seeing a request at a root -/

omit [Fintype α] in
theorem inherit_self {r j : α} : inherit att r j j = none := by
  simp [inherit]

omit [Fintype α] in
theorem inherit_root (att : α → Option (α × α)) {r j : α} (h : r ≠ j) :
    inherit att r j r = att j := by
  simp [inherit, h]

omit [Fintype α] in
theorem inherit_of_ne {r j a : α} (hr : a ≠ r) (hj : a ≠ j) : inherit att r j a = att a := by
  simp [inherit, hr, hj]

theorem Attached.completed_root {c r j y : α} (hatt : Attached father flight att c)
    (hj : father j = none) (hr : att r = some (j, y)) :
    completed (Function.update father j (some y)) (inherit att r j) =
      reverse (completed father att) c y r j := by
  have hseen := hatt.seen_of_att hr
  have hfr : father r = none := hatt.free r (by simp [hr])
  have hr' := inherit_root att hseen.root_ne
  funext a
  by_cases haj : a = j
  · rw [haj, reverse_self]
    exact completed_some (Function.update_self _ _ _)
  · by_cases har : a = r
    · subst har
      rw [hseen.reverse_root]
      have hfa : Function.update father j (some y) a = none := by
        rw [Function.update_of_ne haj, hfr]
      cases hattj : att j with
      | none =>
        have hjc : j = c := by
          obtain ⟨k, hk⟩ := hatt.leads j
          rwa [Function.iterate_fixed (completed_none hj hattj)] at hk
        rw [if_pos hjc]
        exact completed_none hfa (hr'.trans hattj)
      | some q =>
        have hjc : j ≠ c := by
          rintro rfl
          exact absurd (hatt.root.2.symm.trans hattj) (by simp)
        rw [if_neg hjc, completed_att hj hattj]
        exact completed_att hfa (hr'.trans hattj)
    · rw [reverse_of_ne har haj]
      simp only [completed, Function.update_of_ne haj, inherit_of_ne har haj]

/-- A root that sees a request points to the requester. -/
theorem Attached.receive_root {c r j y : α} (hatt : Attached father ((j, y) :: flight) att c)
    (hj : father j = none) (hr : att r = some (j, y)) :
    Attached (Function.update father j (some y)) flight
      (inherit att r j) (if j = c then r else c) := by
  have hseen := hatt.seen_of_att hr
  have hcompleted := hatt.completed_root hj hr
  have hrj := hseen.root_ne
  have hfr : father r = none := hatt.free r (by simp [hr])
  have hr' := inherit_root att hrj
  refine ⟨?_, ?_, ?_, ?_, ?_⟩
  · intro a ha
    by_cases haj : a = j
    · rw [haj, inherit_self] at ha
      exact absurd rfl ha
    · rw [Function.update_of_ne haj]
      by_cases har : a = r
      · rw [har, hfr]
      · rw [inherit_of_ne har haj] at ha
        exact hatt.free a ha
  · by_cases hjc : j = c
    · rw [if_pos hjc, Function.update_of_ne hrj, hr', hjc]
      exact ⟨hfr, hatt.root.2⟩
    · rw [if_neg hjc, Function.update_of_ne (Ne.symm hjc), inherit_of_ne hseen.ne.symm (Ne.symm hjc)]
      exact hatt.root
  · intro a
    rw [hcompleted]
    exact hseen.leads_reverse a
  · intro a b z hb
    rw [hcompleted]
    by_cases haj : a = j
    · rw [haj, inherit_self] at hb
      cases hb
    · by_cases har : a = r
      · subst har
        exact hseen.leads_dest (hatt.requester j b z (hr'.symm.trans hb))
      · exact hseen.leads_other har haj (hatt.requester a b z ((inherit_of_ne har haj).symm.trans hb))
  · intro q
    have h1 := Network.sum_update (fun _ x => if x = some q then 1 else 0) att r (att j)
    have h2 := Network.sum_update (fun _ x => if x = some q then 1 else 0)
      (Function.update att r (att j)) j none
    have h3 := hatt.count q
    rw [List.count_cons] at h3
    simp only [Function.update_of_ne hrj.symm, reduceCtorEq, if_false, Nat.add_zero] at h2
    simp only [hr, Option.some.injEq] at h1
    simp only [beq_iff_eq] at h3
    rw [inherit]
    omega

theorem Forest.receive_root {j y : α} (h : Forest father ((j, y) :: flight)) (hj : father j = none) :
    Forest (Function.update father j (some y)) flight := by
  obtain ⟨att, c, hatt⟩ := h
  obtain ⟨r, hr⟩ := hatt.seen List.mem_cons_self
  exact ⟨_, _, hatt.receive_root hj hr⟩

/-! ### Passing a request on -/

theorem Attached.completed_forward {c r j y b : α} (hatt : Attached father flight att c)
    (hj : father j = some b) (hr : att r = some (j, y)) :
    completed (Function.update father j (some y)) (Function.update att r (some (b, y))) =
      reverse (completed father att) c y r j := by
  have hseen := hatt.seen_of_att hr
  have hjc : j ≠ c := by
    rintro rfl
    exact absurd (hj.symm.trans hatt.root.1) (by simp)
  funext a
  by_cases haj : a = j
  · rw [haj, reverse_self]
    exact completed_some (Function.update_self _ _ _)
  · by_cases har : a = r
    · subst har
      rw [hseen.reverse_root, if_neg hjc, completed_some hj]
      have hfa : father a = none := hatt.free a (by simp [hr])
      exact completed_att (by rw [Function.update_of_ne haj, hfa]) (Function.update_self _ _ _)
    · rw [reverse_of_ne har haj]
      simp only [completed, Function.update_of_ne haj, Function.update_of_ne har]

/-- An element with a father that sees a request passes it on and points to the requester. -/
theorem Attached.receive_forward {c r j y b : α} (hatt : Attached father ((j, y) :: flight) att c)
    (hj : father j = some b) (hr : att r = some (j, y)) :
    Attached (Function.update father j (some y)) ((b, y) :: flight)
      (Function.update att r (some (b, y))) c := by
  have hseen := hatt.seen_of_att hr
  have hcompleted := hatt.completed_forward hj hr
  have hrj := hseen.root_ne
  have hattj := hatt.att_of_father hj
  have hjc : j ≠ c := by
    rintro rfl
    exact absurd (hj.symm.trans hatt.root.1) (by simp)
  refine ⟨?_, ?_, ?_, ?_, ?_⟩
  · intro a ha
    by_cases har : a = r
    · rw [har, Function.update_of_ne hrj]
      exact hatt.free r (by simp [hr])
    · rw [Function.update_of_ne har] at ha
      have haj : a ≠ j := by
        rintro rfl
        exact ha hattj
      rw [Function.update_of_ne haj]
      exact hatt.free a ha
  · rw [Function.update_of_ne (Ne.symm hjc), Function.update_of_ne hseen.ne.symm]
    exact hatt.root
  · intro a
    rw [hcompleted]
    have hl := hseen.leads_reverse a
    rwa [if_neg hjc] at hl
  · intro a b' z hb
    rw [hcompleted]
    by_cases har : a = r
    · subst har
      simp only [Function.update_self, Option.some.injEq, Prod.mk.injEq] at hb
      exact hseen.leads_root (hb.2 ▸ hseen.requester)
    · rw [Function.update_of_ne har] at hb
      have haj : a ≠ j := by
        rintro rfl
        exact absurd (hattj.symm.trans hb) (by simp)
      exact hseen.leads_other har haj (hatt.requester a b' z hb)
  · intro q
    have h1 := Network.sum_update (fun _ x => if x = some q then 1 else 0) att r (some (b, y))
    have h2 := hatt.count q
    rw [List.count_cons] at h2 ⊢
    simp only [hr, Option.some.injEq] at h1
    simp only [beq_iff_eq] at h2 ⊢
    omega

theorem Forest.receive_forward {j y b : α} (h : Forest father ((j, y) :: flight))
    (hj : father j = some b) :
    Forest (Function.update father j (some y)) ((b, y) :: flight) := by
  obtain ⟨att, c, hatt⟩ := h
  obtain ⟨r, hr⟩ := hatt.seen List.mem_cons_self
  exact ⟨_, c, hatt.receive_forward hj hr⟩

/-! ### Who has seen a request -/

section Traced

variable {S : Set α} {z : α}

/-- The element that sees a request next has not seen it before. -/
theorem Traced.notMem {c : α} (h : Traced father att y S) (hatt : Attached father flight att c)
    (hr : att r = some (j, y)) : j ∉ S := by
  have hseen := hatt.seen_of_att hr
  obtain ⟨height, hh, hjr, -⟩ := hseen.height
  intro hj
  have hle := (h r j hr j hj).height_le hseen.self hh
  omega

omit [Fintype α] in
theorem Traced.send {i b : α} (h : Traced father att y S) (hi : father i = some b)
    (hy : i = y → S = ∅) :
    Traced (Function.update father i none) (Function.update att i (some (b, i))) y S := by
  intro r j hr a ha
  rw [completed_send att hi]
  by_cases hri : r = i
  · subst hri
    simp only [Function.update_self, Option.some.injEq, Prod.mk.injEq] at hr
    simp [hy hr.2] at ha
  · rw [Function.update_of_ne hri] at hr
    exact h r j hr a ha

/-- A root sees the request of `z`. -/
theorem Traced.receive_root {c : α} (h : Traced father att y S)
    (hatt : Attached father flight att c) (hj : father j = none) (hr : att r = some (j, z)) :
    Traced (Function.update father j (some z)) (inherit att r j) y S := by
  have hseen := hatt.seen_of_att hr
  have hr' := inherit_root att hseen.root_ne
  intro q k hq a ha
  rw [hatt.completed_root hj hr]
  by_cases hqj : q = j
  · rw [hqj, inherit_self] at hq
    cases hq
  · by_cases hqr : q = r
    · subst hqr
      exact hseen.leads_dest (h j k (hr'.symm.trans hq) a ha)
    · exact hseen.leads_other hqr hqj (h q k ((inherit_of_ne hqr hqj).symm.trans hq) a ha)

/-- An element passes on the request of `z`. -/
theorem Traced.receive_forward {c b : α} (h : Traced father att y S)
    (hatt : Attached father flight att c) (hj : father j = some b) (hr : att r = some (j, z)) :
    Traced (Function.update father j (some z)) (Function.update att r (some (b, z))) y S := by
  have hseen := hatt.seen_of_att hr
  intro q k hq a ha
  rw [hatt.completed_forward hj hr]
  by_cases hqr : q = r
  · subst hqr
    simp only [Function.update_self, Option.some.injEq, Prod.mk.injEq] at hq
    obtain ⟨-, rfl⟩ := hq
    exact hseen.leads_root (h q j hr a ha)
  · rw [Function.update_of_ne hqr] at hq
    have hqj : q ≠ j := by
      rintro rfl
      exact absurd ((hatt.att_of_father hj).symm.trans hq) (by simp)
    exact hseen.leads_other hqr hqj (h q k hq a ha)

/-- The element that passes the only request of `y` on has seen it from then on. -/
theorem Traced.insert_forward {c b : α} (hatt : Attached father flight att c)
    (hj : father j = some b) (hr : att r = some (j, y))
    (hone : ∀ q k, att q = some (k, y) → q = r)
    (h : Traced (Function.update father j (some y)) (Function.update att r (some (b, y))) y S) :
    Traced (Function.update father j (some y)) (Function.update att r (some (b, y))) y
      (insert j S) := by
  have hseen := hatt.seen_of_att hr
  intro q k hq a ha
  rcases ha with rfl | ha
  · have hqr : q = r := by
      by_contra hne
      rw [Function.update_of_ne hne] at hq
      exact hne (hone q k hq)
    subst hqr
    rw [hatt.completed_forward hj hr]
    exact hseen.leads_dest (Leads.refl a)
  · exact h q k hq a ha

end Traced

end Forest

end Reversal

end Pointers
