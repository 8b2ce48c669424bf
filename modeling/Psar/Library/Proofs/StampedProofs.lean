import Psar.Library.Stamped

/-!
# Proofs: lists that remember when their entries were added

A search from the head finds the latest entry with a property, a search from the other end the
earliest one. The two are the same entry only if no other entry has the property.
-/

namespace Stamped

variable {α : Type} {h : History α} {p : α → Bool} {e e' : Entry α}

@[simp] theorem History.vals_push (a : α) : (h.push a).vals = a :: h.vals := rfl

@[simp] theorem History.vals_eraseP : (h.eraseP p).vals = h.vals.eraseP p :=
  List.eraseP_map.symm

/-! ## Times -/

/-- No two entries were added at the same time. -/
theorem History.time_injective (he : e ∈ h.entries) (he' : e' ∈ h.entries)
    (htime : e.time = e'.time) : e = e' := by
  by_contra hne
  have hdistinct : h.entries.Pairwise fun a b => a.time ≠ b.time :=
    h.newestFirst.imp fun hlt => Nat.ne_of_gt hlt
  have : Std.Symm fun a b : Entry α => a.time ≠ b.time := ⟨fun _ _ hab => hab.symm⟩
  exact hdistinct.forall he he' hne htime

theorem History.IsLatest.unique (he : h.IsLatest p e) (he' : h.IsLatest p e') : e = e' :=
  h.time_injective he.1 he'.1
    (Nat.le_antisymm (he'.2.2 e he.1 he.2.1) (he.2.2 e' he'.1 he'.2.1))

/-! ## Searching -/

theorem History.isLatest_of_find? (hfind : h.entries.find? (fun e => p e.val) = some e) :
    h.IsLatest p e := by
  obtain ⟨hp, before, after, heq, hbefore⟩ := List.find?_eq_some_iff_append.mp hfind
  refine ⟨List.mem_of_find?_eq_some hfind, hp, ?_⟩
  intro e' he' hp'
  have horder := h.newestFirst
  rw [heq] at he' horder
  rcases List.mem_append.mp he' with hin | hin
  · exact absurd hp' (by simpa using hbefore e' hin)
  · rcases List.mem_cons.mp hin with rfl | hin
    · exact Nat.le_refl _
    · have hrest := (List.pairwise_append.mp horder).2.1
      exact Nat.le_of_lt ((List.pairwise_cons.mp hrest).1 e' hin)

theorem History.isEarliest_of_find?_reverse
    (hfind : h.entries.reverse.find? (fun e => p e.val) = some e) : h.IsEarliest p e := by
  obtain ⟨hp, before, after, heq, hbefore⟩ := List.find?_eq_some_iff_append.mp hfind
  refine ⟨List.mem_reverse.mp (List.mem_of_find?_eq_some hfind), hp, ?_⟩
  intro e' he' hp'
  have horder := List.pairwise_reverse.mpr h.newestFirst
  have hin' := List.mem_reverse.mpr he'
  rw [heq] at hin' horder
  rcases List.mem_append.mp hin' with hin | hin
  · exact absurd hp' (by simpa using hbefore e' hin)
  · rcases List.mem_cons.mp hin with rfl | hin
    · exact Nat.le_refl _
    · have hrest := (List.pairwise_append.mp horder).2.1
      exact Nat.le_of_lt ((List.pairwise_cons.mp hrest).1 e' hin)

/-- Among the entries with a property there is an earliest and a latest one. -/
theorem History.exists_earliest (he : e ∈ h.entries) (hp : p e.val) :
    ∃ first, h.entries.reverse.find? (fun e => p e.val) = some first ∧ h.IsEarliest p first := by
  have hsome : (h.entries.reverse.find? fun e => p e.val).isSome := by
    rw [List.find?_isSome]
    exact ⟨e, List.mem_reverse.mpr he, hp⟩
  obtain ⟨first, hfirst⟩ := Option.isSome_iff_exists.mp hsome
  exact ⟨first, hfirst, History.isEarliest_of_find?_reverse hfirst⟩

theorem History.exists_latest (he : e ∈ h.entries) (hp : p e.val) :
    ∃ last, h.entries.find? (fun e => p e.val) = some last ∧ h.IsLatest p last := by
  have hsome : (h.entries.find? fun e => p e.val).isSome := by
    rw [List.find?_isSome]
    exact ⟨e, he, hp⟩
  obtain ⟨last, hlast⟩ := Option.isSome_iff_exists.mp hsome
  exact ⟨last, hlast, History.isLatest_of_find? hlast⟩

/-! ## At most one entry -/

/-- The earliest entry is the latest one only if it is the only one. -/
theorem History.atMostOne_of_earliest_latest (he : h.IsEarliest p e) (hl : h.IsLatest p e) :
    h.AtMostOne p := by
  have hall : ∀ a ∈ h.entries, p a.val → a = e := by
    intro a ha hp
    exact h.time_injective ha he.1 (Nat.le_antisymm (hl.2.2 a ha hp) (he.2.2 a ha hp))
  intro a ha b hb hpa hpb
  rw [hall a ha hpa, hall b hb hpb]

theorem History.AtMostOne.isEarliest (hone : h.AtMostOne p) (he : e ∈ h.entries) (hp : p e.val) :
    h.IsEarliest p e := by
  refine ⟨he, hp, ?_⟩
  intro e' he' hp'
  rw [hone e he e' he' hp hp']

theorem History.AtMostOne.isLatest (hone : h.AtMostOne p) (he : e ∈ h.entries) (hp : p e.val) :
    h.IsLatest p e := by
  refine ⟨he, hp, ?_⟩
  intro e' he' hp'
  rw [hone e he e' he' hp hp']

/-- The search from the head finds the earliest entry if and only if there is at most one. -/
theorem History.find?_isEarliest_iff :
    (∀ e, h.entries.find? (fun e => p e.val) = some e → h.IsEarliest p e) ↔ h.AtMostOne p := by
  constructor
  · intro hfirst a ha b hb hpa hpb
    obtain ⟨last, hlast, hl⟩ := History.exists_latest ha hpa
    exact History.atMostOne_of_earliest_latest (hfirst last hlast) hl a ha b hb hpa hpb
  · intro hone e he
    have hl := History.isLatest_of_find? he
    exact hone.isEarliest hl.1 hl.2.1

/-- The search from the other end finds the latest entry if and only if there is at most one. -/
theorem History.find?_reverse_isLatest_iff :
    (∀ e, h.entries.reverse.find? (fun e => p e.val) = some e → h.IsLatest p e) ↔
      h.AtMostOne p := by
  constructor
  · intro hlast a ha b hb hpa hpb
    obtain ⟨first, hfirst, he⟩ := History.exists_earliest ha hpa
    exact History.atMostOne_of_earliest_latest he (hlast first hfirst) a ha b hb hpa hpb
  · intro hone e he
    have hf := History.isEarliest_of_find?_reverse he
    exact hone.isLatest hf.1 hf.2.1

/-! ## Removing -/

/-- What is removed is the latest entry with the property. -/
theorem History.entries_eraseP (hl : h.IsLatest p e) :
    (h.eraseP p).entries = h.entries.filter fun e' => e'.time ≠ e.time := by
  obtain ⟨last, hlast, hl'⟩ := History.exists_latest hl.1 hl.2.1
  obtain rfl := hl'.unique hl
  obtain ⟨hp, before, after, heq, hbefore⟩ := List.find?_eq_some_iff_append.mp hlast
  have horder := h.newestFirst
  show h.entries.eraseP _ = _
  rw [heq] at horder ⊢
  obtain ⟨-, hrest, hcross⟩ := List.pairwise_append.mp horder
  have hkeep : before.filter (fun e' => e'.time ≠ last.time) = before := by
    rw [List.filter_eq_self]
    intro a ha
    exact decide_eq_true (Nat.ne_of_gt (hcross a ha last List.mem_cons_self))
  have hkeep' : after.filter (fun e' => e'.time ≠ last.time) = after := by
    rw [List.filter_eq_self]
    intro a ha
    exact decide_eq_true (Nat.ne_of_lt ((List.pairwise_cons.mp hrest).1 a ha))
  rw [List.eraseP_append_right _ (fun a ha => by simpa using hbefore a ha),
    List.eraseP_cons_of_pos (p := fun e : Entry α => p e.val) hp, List.filter_append,
    List.filter_cons_of_neg (by simp), hkeep,
    hkeep']

/-- The earliest entry with the property is removed, and all others are kept, if and only if there
is at most one. -/
theorem History.eraseP_earliest_iff :
    (∀ e, h.IsEarliest p e →
        (h.eraseP p).entries = h.entries.filter fun e' => e'.time ≠ e.time) ↔ h.AtMostOne p := by
  constructor
  · intro herase a ha b hb hpa hpb
    obtain ⟨first, -, hfirst⟩ := History.exists_earliest ha hpa
    obtain ⟨last, -, hlast⟩ := History.exists_latest ha hpa
    have hsame := (History.entries_eraseP hlast).symm.trans (herase first hfirst)
    -- the latest entry is not in the list on the left
    have hnot : last ∉ h.entries.filter fun e' => e'.time ≠ first.time := by
      rw [← hsame, List.mem_filter]
      simp
    rw [List.mem_filter] at hnot
    have htime : last.time = first.time := by
      by_contra hne
      exact hnot ⟨hlast.1, decide_eq_true hne⟩
    rw [h.time_injective hlast.1 hfirst.1 htime] at hlast
    exact History.atMostOne_of_earliest_latest hfirst hlast a ha b hb hpa hpb
  · intro hone e he
    exact History.entries_eraseP (hone.isLatest he.1 he.2.1)

end Stamped
