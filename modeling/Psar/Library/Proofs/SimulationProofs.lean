import Psar.Library.Simulation
import Psar.Library.Proofs.NetworkProofs

/-!
# Proofs: systems seen through parts of them

The rule that follows a whole run step by step, and what a step of a network does to a part of it.
-/

namespace Network

/-! ## Runs that are followed -/

section Translate

variable {σ τ α β : Type} {next : σ → α → Option σ} {next' : τ → β → Option τ}
  {tr : σ → α → List β} {ok : σ → α → Prop} {ok' : τ → β → Prop}

/-- If every step can be followed from related states to related states, by steps that meet `ok'`,
so can every run. -/
theorem run_translate {R : σ → τ → Prop}
    (hstep : ∀ s t a s', R s t → ok s a → next s a = some s' →
      ∃ t', run next' t (tr s a) = some t' ∧ Meets next' ok' t (tr s a) ∧ R s' t')
    {s u : σ} {t : τ} {as : List α} (hR : R s t) (hok : Meets next ok s as)
    (hrun : run next s as = some u) :
    ∃ t', run next' t (translate next tr s as) = some t' ∧
      Meets next' ok' t (translate next tr s as) ∧ R u t' := by
  induction as generalizing s t with
  | nil =>
    cases hrun
    exact ⟨t, rfl, trivial, hR⟩
  | cons a as ih =>
    obtain ⟨s', hs', hrun'⟩ := run_cons_eq_some.mp hrun
    obtain ⟨t₁, ht₁, hok₁, hR₁⟩ := hstep s t a s' hR hok.1 hs'
    obtain ⟨t₂, ht₂, hok₂, hR₂⟩ := ih hR₁ (hok.2 s' hs') hrun'
    have htr : translate next tr s (a :: as) = tr s a ++ translate next tr s' as := by
      simp [translate, hs']
    refine ⟨t₂, ?_, ?_, hR₂⟩
    · rw [htr, run_append, ht₁]
      exact ht₂
    · rw [htr, meets_append]
      refine ⟨hok₁, ?_⟩
      intro t' ht'
      obtain rfl : t₁ = t' := Option.some.inj (ht₁.symm.trans ht')
      exact hok₂

theorem Meets.cons {s s' : σ} {a : α} {as : List α} (hok : ok s a) (hs : next s a = some s')
    (h : Meets next ok s' as) : Meets next ok s (a :: as) := by
  refine ⟨hok, fun t ht => ?_⟩
  obtain rfl := Option.some.inj (hs.symm.trans ht)
  exact h

/-- At most one step, which meets `ok`. -/
theorem meets_of_length_le_one {s : σ} {as : List α} (hlen : as.length ≤ 1)
    (h : ∀ a ∈ as, ok s a) : Meets next ok s as := by
  match as, hlen with
  | [], _ => trivial
  | [a], _ => exact ⟨h a (List.mem_singleton_self a), fun _ _ => trivial⟩

theorem translate_append {s u : σ} {as : List α} (hrun : run next s as = some u) (bs : List α) :
    translate next tr s (as ++ bs) = translate next tr s as ++ translate next tr u bs := by
  induction as generalizing s with
  | nil =>
    cases hrun
    rfl
  | cons a as ih =>
    obtain ⟨s', hs', hrun'⟩ := run_cons_eq_some.mp hrun
    simp only [List.cons_append, translate, hs', Option.map_some, Option.getD_some]
    rw [ih hrun', List.append_assoc]

/-- A run is followed step by step, where what a step needs may depend on the whole run before
it. -/
theorem run_translate_history {R : List α → σ → τ → Prop} {s₀ : σ} {t₀ : τ}
    (hstep : ∀ as s t a s', run next s₀ as = some s → Meets next ok s₀ as → R as s t → ok s a →
      next s a = some s' → ∃ t', run next' t (tr s a) = some t' ∧ R (as ++ [a]) s' t')
    (hR : R [] s₀ t₀) {as : List α} {u : σ} (hok : Meets next ok s₀ as)
    (hrun : run next s₀ as = some u) :
    ∃ t', run next' t₀ (translate next tr s₀ as) = some t' ∧ R as u t' := by
  induction as using List.reverseRecOn generalizing u with
  | nil =>
    cases hrun
    exact ⟨t₀, rfl, hR⟩
  | append_singleton as a ih =>
    obtain ⟨hok, hlast⟩ := meets_append.mp hok
    rw [run_append] at hrun
    obtain ⟨s, hs, hrun⟩ := Option.bind_eq_some_iff.mp hrun
    obtain ⟨s', hs', hnil⟩ := run_cons_eq_some.mp hrun
    obtain rfl := Option.some.inj hnil
    obtain ⟨t, ht, hR⟩ := ih hok hs
    obtain ⟨t', ht', hR'⟩ := hstep as s t a s' hs hok hR (hlast s hs).1 hs'
    refine ⟨t', ?_, hR'⟩
    have htr : translate next tr s [a] = tr s a := by
      simp [translate, hs']
    rw [translate_append hs, htr, run_append, ht]
    exact ht'

/-- What the steps of a run add up to, when every step adds up to what it is translated to. -/
theorem foldl_translate {γ : Type} {acc : γ → α → γ} {acc' : γ → β → γ}
    (hacc : ∀ s a c, (tr s a).foldl acc' c = acc c a) {s u : σ} {as : List α}
    (hrun : run next s as = some u) (c : γ) :
    (translate next tr s as).foldl acc' c = as.foldl acc c := by
  induction as generalizing s c with
  | nil => rfl
  | cons a as ih =>
    obtain ⟨s', hs', hrun'⟩ := run_cons_eq_some.mp hrun
    have htr : translate next tr s (a :: as) = tr s a ++ translate next tr s' as := by
      simp [translate, hs']
    rw [htr, List.foldl_append, hacc, List.foldl_cons]
    exact ih hrun' _

end Translate

/-! ## Several actions of one node -/

section Act

variable {ι S M A : Type} {P : Protocol ι S M A}

@[simp] theorem actRun_nil (i : ι) (x : S) : actRun P i x [] = some (x, []) := rfl

theorem actRun_single {i : ι} {x : S} {a : A} {r : S × List M} (h : P.act i x a = some r) :
    actRun P i x [a] = some r := by
  simp [actRun, h]

theorem actRun_pair {i : ι} {x : S} {a b : A} {r r' : S × List M} (h : P.act i x a = some r)
    (h' : P.act i r.1 b = some r') : actRun P i x [a, b] = some (r'.1, r.2 ++ r'.2) := by
  simp [actRun, h, h']

variable [DecidableEq ι] [DecidableEq M]

omit [DecidableEq M] in
theorem fire_same (s : Net ι S M) (i : ι) : s.fire i s.msgs (s.node i, []) = s := by
  simp [Net.fire]

omit [DecidableEq M] in
/-- Two moves of one node, one after the other. -/
theorem fire_fire (s : Net ι S M) (i : ι) (rest : List M) (r r' : S × List M) :
    (s.fire i rest r).fire i (rest ++ r.2) r' = s.fire i rest (r'.1, r.2 ++ r'.2) := by
  simp [Net.fire]

theorem run_act {s : Net ι S M} {i : ι} {as : List A} {r : S × List M}
    (h : actRun P i (s.node i) as = some r) :
    run (step P) s (as.map (.act i)) = some (s.fire i s.msgs r) := by
  induction as generalizing s r with
  | nil =>
    cases h
    exact congrArg some (fire_same s i).symm
  | cons a as ih =>
    obtain ⟨r₁, hr₁, h⟩ := Option.bind_eq_some_iff.mp h
    obtain ⟨r₂, hr₂, rfl⟩ := Option.map_eq_some_iff.mp h
    have hrun := ih (s := s.fire i s.msgs r₁) (r := r₂) (by rw [fire_node_self]; exact hr₂)
    rw [List.map_cons, run_cons_eq_some]
    refine ⟨s.fire i s.msgs r₁, step_act hr₁, ?_⟩
    rw [hrun]
    exact congrArg some (fire_fire s i s.msgs r₁ r₂)

end Act

/-! ## Parts of a network -/

section Project

variable {ι S S' M M' : Type} {f : S → S'} {g : M → Option M'}

@[simp] theorem project_node (s : Net ι S M) (i : ι) : (s.project f g).node i = f (s.node i) := rfl

theorem project_fire [DecidableEq ι] (s : Net ι S M) (i : ι) (rest : List M) (r : S × List M) :
    (s.fire i rest r).project f g =
      (s.project f g).fire i (rest.filterMap g) (f r.1, r.2.filterMap g) := by
  unfold Net.fire Net.project
  congr 1
  · funext j
    by_cases hj : j = i
    · subst hj
      simp
    · simp [hj]
  · exact List.filterMap_append

theorem filterMap_erase_some [DecidableEq M] [DecidableEq M'] (hg : Separates g) {m : M} {x : M'}
    (hm : g m = some x) (l : List M) : (l.erase m).filterMap g = (l.filterMap g).erase x := by
  induction l with
  | nil => rfl
  | cons a l ih =>
    by_cases ha : a = m
    · subst ha
      simp [hm]
    · rw [List.erase_cons_tail (by simpa using ha)]
      cases hga : g a with
      | none => simp [hga, ih]
      | some y =>
        have hy : y ≠ x := by
          rintro rfl
          exact ha (hg a m y hga hm)
        simp [hga, ih, hy]

theorem filterMap_erase_none [DecidableEq M] {m : M} (hm : g m = none) (l : List M) :
    (l.erase m).filterMap g = l.filterMap g := by
  induction l with
  | nil => rfl
  | cons a l ih =>
    by_cases ha : a = m
    · subst ha
      simp [hm]
    · rw [List.erase_cons_tail (by simpa using ha)]
      simp [List.filterMap_cons, ih]

theorem mem_project_msgs {s : Net ι S M} {m : M} {x : M'} (hm : m ∈ s.msgs) (hx : g m = some x) :
    x ∈ (s.project f g).msgs := List.mem_filterMap.mpr ⟨m, hm, hx⟩

end Project

/-! ## Systems side by side -/

section Family

variable {κ σ α : Type} [DecidableEq κ] {next : σ → α → Option σ} {ok : σ → α → Prop}

theorem stepsOf_cons_self (k : κ) (a : α) (es : List (κ × α)) :
    stepsOf k ((k, a) :: es) = a :: stepsOf k es := by simp [stepsOf]

theorem stepsOf_cons_ne {k k' : κ} (h : k' ≠ k) (a : α) (es : List (κ × α)) :
    stepsOf k ((k', a) :: es) = stepsOf k es := by simp [stepsOf, h]

/-- A run of the family is a run of each of the systems. -/
theorem run_family {s t : κ → σ} {es : List (κ × α)}
    (hrun : run (familyStep next) s es = some t) (k : κ) :
    run next (s k) (stepsOf k es) = some (t k) := by
  induction es generalizing s with
  | nil =>
    cases hrun
    rfl
  | cons e es ih =>
    obtain ⟨k', a⟩ := e
    obtain ⟨s', hs', hrun'⟩ := run_cons_eq_some.mp hrun
    obtain ⟨u, hu, rfl⟩ := Option.map_eq_some_iff.mp hs'
    have h := ih hrun'
    by_cases hk : k' = k
    · subst hk
      rw [stepsOf_cons_self, run_cons_eq_some]
      exact ⟨u, hu, by simpa using h⟩
    · rw [stepsOf_cons_ne hk]
      simpa [Function.update_of_ne (Ne.symm hk)] using h

theorem meets_family (ok : σ → α → Prop) {s : κ → σ} {es : List (κ × α)}
    (hok : Meets (familyStep next) (fun s e => ok (s e.1) e.2) s es) (k : κ) :
    ∀ t, run (familyStep next) s es = some t → Meets next ok (s k) (stepsOf k es) := by
  induction es generalizing s with
  | nil =>
    intro t _
    trivial
  | cons e es ih =>
    obtain ⟨k', a⟩ := e
    intro t hrun
    obtain ⟨s', hs', hrun'⟩ := run_cons_eq_some.mp hrun
    have h := ih (hok.2 s' hs') t hrun'
    obtain ⟨u, hu, rfl⟩ := Option.map_eq_some_iff.mp hs'
    by_cases hk : k' = k
    · subst hk
      rw [stepsOf_cons_self]
      refine ⟨hok.1, ?_⟩
      intro u' hu'
      obtain rfl : u = u' := Option.some.inj (hu.symm.trans hu')
      simpa using h
    · rw [stepsOf_cons_ne hk]
      simpa [Function.update_of_ne (Ne.symm hk)] using h

end Family

end Network
