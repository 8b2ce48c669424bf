import Psar.Library.Proofs.PointersProofs

/-!
# Proofs: queues behind a root

A root that sees a request and cannot answer it appends the queue of the requester to its own. The
requests in flight say where each of these queues ends, so no queue is ever closed to a cycle.
-/

namespace Pointers

variable {α : Type} {next : α → Option α}

/-! ## Ends of queues -/

/-- At its end, a queue stays. -/
theorem Ends.iterate_end {e : α} (he : next e = none) (k : ℕ) :
    (fun b => (next b).getD b)^[k] e = e := by
  apply Function.iterate_fixed (f := fun b => (next b).getD b)
  show (next e).getD e = e
  rw [he]
  rfl

theorem Ends.refl {a : α} (h : next a = none) : Ends next a a := ⟨Leads.refl a, h⟩

/-- What leads to the end of a queue passes through every element of the path. -/
theorem Ends.of_leads {a b e : α} (h : Leads (fun b => (next b).getD b) a b) (hb : Ends next b e) :
    Ends next a e :=
  ⟨h.trans hb.1, hb.2⟩

/-- A path either goes on to the end of the queue or stays there. -/
theorem Ends.leads_end {a b e : α} (he : Ends next a e)
    (hb : Leads (fun b => (next b).getD b) a b) : Leads (fun b => (next b).getD b) b e := by
  obtain ⟨⟨k, hk⟩, hnone⟩ := he
  obtain ⟨m, hm⟩ := hb
  rcases Nat.le_total m k with hle | hle
  · refine ⟨k - m, ?_⟩
    rw [← hm, ← Function.iterate_add_apply, Nat.sub_add_cancel hle, hk]
  · have hbe : b = e := by
      rw [← hm, ← Nat.sub_add_cancel hle, Function.iterate_add_apply, hk]
      exact Ends.iterate_end hnone _
    exact hbe ▸ Leads.refl b

theorem Ends.unique {a e e' : α} (h : Ends next a e) (h' : Ends next a e') : e = e' := by
  obtain ⟨k, hk⟩ := h.leads_end h'.1
  rw [Ends.iterate_end h'.2] at hk
  exact hk.symm

/-- The end of a queue is its only element, or the `next` of another one. -/
theorem Leads.eq_or_pred {a b : α} (h : Leads (fun b => (next b).getD b) a b) :
    a = b ∨ ∃ i, next i = some b := by
  obtain ⟨k, hk⟩ := h
  induction k generalizing a with
  | zero => exact Or.inl hk
  | succ k ih =>
    rcases ih (a := (next a).getD a) hk with h | h
    · cases hn : next a with
      | none =>
        rw [hn] at h
        exact Or.inl h
      | some c =>
        rw [hn] at h
        exact Or.inr ⟨a, hn.trans (congrArg some h)⟩
    · exact Or.inr h

/-- If every element of a finite set has a predecessor in the set, some queue of it never ends. -/
theorem not_ends_of_pred [Finite α] {B : Set α} (hB : ∀ b ∈ B, ∃ a ∈ B, next a = some b) {b : α}
    (hb : b ∈ B) (e : α) : ¬ Ends next b e := by
  choose! pred hmem hpred using hB
  let g : B → B := fun b => ⟨pred b, hmem b b.2⟩
  have hinj : Function.Injective g := by
    intro a b hab
    have h : pred a = pred b := congrArg Subtype.val hab
    have h1 := hpred a a.2
    rw [h, hpred b b.2] at h1
    exact Subtype.ext (Option.some.inj h1).symm
  -- so every element of the set is such a predecessor, and its `next` is in the set
  have hnext : ∀ b ∈ B, ∃ c ∈ B, next b = some c := by
    intro b hb
    obtain ⟨c, hc⟩ := Finite.surjective_of_injective hinj ⟨b, hb⟩
    have h : pred c = b := congrArg Subtype.val hc
    exact ⟨c, c.2, h ▸ hpred c c.2⟩
  rintro ⟨⟨k, hk⟩, he⟩
  induction k generalizing b with
  | zero =>
    obtain ⟨c, -, hc⟩ := hnext b hb
    obtain rfl : b = e := hk
    rw [he] at hc
    cases hc
  | succ k ih =>
    obtain ⟨c, hc, hbc⟩ := hnext b hb
    refine ih hc ?_
    have h : (next b).getD b = c := by simp [hbc]
    rw [← h]
    exact hk

variable [DecidableEq α]

/-- A change of the `next` of an element that is not on the path. -/
theorem Leads.update_next {a b i : α} {x : Option α} (h : Leads (fun b => (next b).getD b) a b)
    (hi : ¬ Leads (fun b => (next b).getD b) a i) :
    Leads (fun b => (Function.update next i x b).getD b) a b := by
  obtain ⟨k, hk⟩ := h
  induction k generalizing a with
  | zero => exact ⟨0, hk⟩
  | succ k ih =>
    have hai : a ≠ i := by
      rintro rfl
      exact hi (Leads.refl a)
    apply Leads.of_step
    simp only [Function.update_of_ne hai]
    exact ih (fun h => hi h.of_step) hk

/-- A queue is cut off behind `i`. -/
theorem Ends.cut {a e : α} (h : Ends next a e) (i : α) :
    ∃ e', Ends (Function.update next i none) a e' := by
  obtain ⟨⟨k, hk⟩, he⟩ := h
  induction k generalizing a with
  | zero =>
    obtain rfl : a = e := hk
    refine ⟨a, Ends.refl ?_⟩
    by_cases hai : a = i
    · rw [hai, Function.update_self]
    · rw [Function.update_of_ne hai]
      exact he
  | succ k ih =>
    by_cases hai : a = i
    · subst hai
      exact ⟨a, Ends.refl (Function.update_self _ _ _)⟩
    · obtain ⟨e', hlead, hend⟩ := ih hk
      refine ⟨e', Leads.of_step ?_, hend⟩
      simp only [Function.update_of_ne hai]
      exact hlead

section Append

variable {d y r : α}

/-- The queue of `y` is appended at `d`; it still ends at `r`. -/
theorem Ends.append_self (hy : Ends next y r) (hd : next d = none) (hne : r ≠ d) :
    Ends (Function.update next d (some y)) y r := by
  refine ⟨hy.1.update_next ?_, ?_⟩
  · intro hyd
    exact hne (hy.unique (Ends.of_leads hyd (Ends.refl hd)))
  · rw [Function.update_of_ne hne]
    exact hy.2

/-- A queue that ended at `d` ends at `r` now. -/
theorem Ends.append_tail (hy : Ends next y r) (hd : next d = none) (hne : r ≠ d) {a : α}
    (ha : Ends next a d) : Ends (Function.update next d (some y)) a r := by
  have htail : Ends (Function.update next d (some y)) d r := by
    refine Ends.of_leads ?_ (hy.append_self hd hne)
    exact ⟨1, by simp⟩
  obtain ⟨⟨k, hk⟩, -⟩ := ha
  induction k generalizing a with
  | zero =>
    obtain rfl : a = d := hk
    exact htail
  | succ k ih =>
    by_cases had : a = d
    · exact had ▸ htail
    · refine ⟨Leads.of_step ?_, htail.2⟩
      simp only [Function.update_of_ne had]
      exact (ih hk).1

/-- The other queues stay as they are. -/
theorem Ends.append_other (hd : next d = none) {a e : α} (ha : Ends next a e) (he : e ≠ d) :
    Ends (Function.update next d (some y)) a e := by
  refine ⟨ha.1.update_next ?_, ?_⟩
  · intro had
    exact he (ha.unique (Ends.of_leads had (Ends.refl hd)))
  · rw [Function.update_of_ne he]
    exact ha.2

end Append

/-! ## Queues and requests in flight -/

section Queued

variable {att : α → Option (α × α)} {r j y : α}

/-- An element without `next` sends a request. -/
theorem Queued.send {i b : α} (h : Queued next att) (hi : next i = none) :
    Queued next (Function.update att i (some (b, i))) where
  tail := by
    intro r j y hr
    by_cases hri : r = i
    · subst hri
      simp only [Function.update_self, Option.some.injEq, Prod.mk.injEq] at hr
      exact hr.2 ▸ Ends.refl hi
    · rw [Function.update_of_ne hri] at hr
      exact h.tail r j y hr
  ends := h.ends

/-- A request is passed on. -/
theorem Queued.forward {b : α} (h : Queued next att) (hr : att r = some (j, y)) :
    Queued next (Function.update att r (some (b, y))) where
  tail := by
    intro q k z hq
    by_cases hqr : q = r
    · subst hqr
      simp only [Function.update_self, Option.some.injEq, Prod.mk.injEq] at hq
      exact hq.2 ▸ h.tail q j y hr
    · rw [Function.update_of_ne hqr] at hq
      exact h.tail q k z hq
  ends := h.ends

/-- A root without a request of its own answers a request. -/
theorem Queued.answer (h : Queued next att) (hrj : r ≠ j) (hj : att j = none) :
    Queued next (inherit att r j) where
  tail := by
    intro q k z hq
    by_cases hqj : q = j
    · rw [hqj, inherit_self] at hq
      cases hq
    · by_cases hqr : q = r
      · rw [hqr, inherit_root _ hrj, hj] at hq
        cases hq
      · rw [inherit_of_ne hqr hqj] at hq
        exact h.tail q k z hq
  ends := h.ends

/-- A root puts a requester behind itself. -/
theorem Queued.append (h : Queued next att) (hrj : r ≠ j) (hr : att r = some (j, y))
    (hj : next j = none) : Queued (Function.update next j (some y)) (inherit att r j) where
  tail := by
    have hy := h.tail r j y hr
    intro q k z hq
    by_cases hqj : q = j
    · rw [hqj, inherit_self] at hq
      cases hq
    · by_cases hqr : q = r
      · rw [hqr, inherit_root _ hrj] at hq
        exact hqr ▸ hy.append_tail hj hrj (h.tail j k z hq)
      · rw [inherit_of_ne hqr hqj] at hq
        exact Ends.append_other hj (h.tail q k z hq) hqj
  ends := by
    have hy := h.tail r j y hr
    intro a
    obtain ⟨e, he⟩ := h.ends a
    by_cases hej : e = j
    · subst hej
      exact ⟨r, hy.append_tail hj hrj he⟩
    · exact ⟨e, Ends.append_other hj he hej⟩

/-- The head `i` of a queue that no request in flight belongs to leaves it. -/
theorem Queued.pop {i : α} (h : Queued next att) (hi : ∀ a, next a ≠ some i)
    (hatt : ∀ r j, att r ≠ some (j, i)) : Queued (Function.update next i none) att where
  tail := by
    intro r j y hr
    have hy := h.tail r j y hr
    refine ⟨hy.1.update_next ?_, ?_⟩
    · intro hyi
      rcases hyi.eq_or_pred with rfl | ⟨a, ha⟩
      · exact hatt r j hr
      · exact hi a ha
    · by_cases hri : r = i
      · rw [hri, Function.update_self]
      · rw [Function.update_of_ne hri]
        exact hy.2
  ends := by
    intro a
    obtain ⟨e, he⟩ := h.ends a
    exact he.cut i

end Queued

end Pointers
