import Psar.Library.Network

/-!
# Proofs: runs and weights of asynchronous networks

The invariant rules for runs, what a step of a network can do, and how a step changes a weight.
-/

namespace Network

/-! ## Runs -/

section Run

variable {σ α τ : Type} {next : σ → α → Option σ} {ok : σ → α → Prop}

@[simp] theorem run_nil (s : σ) : run next s [] = some s := rfl

theorem run_cons_eq_some {s t : σ} {a : α} {as : List α} :
    run next s (a :: as) = some t ↔ ∃ s', next s a = some s' ∧ run next s' as = some t := by
  simp [run, Option.bind_eq_some_iff]

theorem run_append (s : σ) (as bs : List α) :
    run next s (as ++ bs) = (run next s as).bind fun t => run next t bs := by
  induction as generalizing s with
  | nil => rfl
  | cons a as ih =>
    cases h : next s a with
    | none => simp [run, h]
    | some s' => simp [run, h, ih]

/-- A condition on the steps alone. -/
theorem meets_of_forall {ok : α → Prop} {as : List α} (h : ∀ a ∈ as, ok a) (s : σ) :
    Meets next (fun _ a => ok a) s as := by
  induction as generalizing s with
  | nil => trivial
  | cons a as ih =>
    exact ⟨h a List.mem_cons_self, fun s' _ => ih (fun b hb => h b (List.mem_cons_of_mem a hb)) s'⟩

theorem meets_true (s : σ) (as : List α) : Meets next (fun _ _ => True) s as :=
  meets_of_forall (fun _ _ => trivial) s

/-- The states reached by the prefixes of a run: the first one, and those after the first step. -/
theorem forall_prefix_cons {P : σ → Prop} {s : σ} {a : α} {as : List α} :
    (∀ bs, bs <+: a :: as → ∀ t, run next s bs = some t → P t) ↔
      P s ∧ ∀ s', next s a = some s' → ∀ bs, bs <+: as → ∀ t, run next s' bs = some t → P t := by
  constructor
  · intro h
    refine ⟨h [] List.nil_prefix s rfl, ?_⟩
    intro s' hs' bs hbs t ht
    exact h (a :: bs) (List.cons_prefix_cons.mpr ⟨rfl, hbs⟩) t (run_cons_eq_some.mpr ⟨s', hs', ht⟩)
  · rintro ⟨hs, h⟩ bs hbs t ht
    cases bs with
    | nil =>
      cases ht
      exact hs
    | cons b bs =>
      obtain ⟨rfl, hprefix⟩ := List.cons_prefix_cons.mp hbs
      obtain ⟨s', hs', ht⟩ := run_cons_eq_some.mp ht
      exact h s' hs' bs hprefix t ht

theorem meets_append {s : σ} {as bs : List α} :
    Meets next ok s (as ++ bs) ↔
      Meets next ok s as ∧ ∀ t, run next s as = some t → Meets next ok t bs := by
  induction as generalizing s with
  | nil => simp [Meets]
  | cons a as ih =>
    cases h : next s a with
    | none => simp [Meets, run, h]
    | some s' => simp [Meets, run, h, ih, and_assoc]

theorem Meets.and {ok' : σ → α → Prop} {s : σ} {as : List α} (h : Meets next ok s as)
    (h' : Meets next ok' s as) : Meets next (fun s a => ok s a ∧ ok' s a) s as := by
  induction as generalizing s with
  | nil => trivial
  | cons a as ih => exact ⟨⟨h.1, h'.1⟩, fun s' hs' => ih (h.2 s' hs') (h'.2 s' hs')⟩

theorem Meets.mono {ok' : σ → α → Prop} {s : σ} {as : List α} (h : Meets next ok s as)
    (hmono : ∀ s a, ok s a → ok' s a) : Meets next ok' s as := by
  induction as generalizing s with
  | nil => trivial
  | cons a as ih => exact ⟨hmono s a h.1, fun s' hs' => ih (h.2 s' hs')⟩

/-- What holds of every step taken in a state with an invariant holds of all steps of a run. -/
theorem Meets.of_invariant {ok' : σ → α → Prop} {P : σ → Prop} {s : σ} {as : List α}
    (h : Meets next ok s as) (hstep : ∀ s a s', P s → ok s a → next s a = some s' → P s')
    (hok' : ∀ s a, P s → ok s a → ok' s a) (hP : P s) : Meets next ok' s as := by
  induction as generalizing s with
  | nil => trivial
  | cons a as ih =>
    exact ⟨hok' s a hP h.1, fun s' hs' => ih (h.2 s' hs') (hstep s a s' hP h.1 hs')⟩

/-- A relation between the states of a run and the values of an accumulator that every step keeps
holds at the end of the run. -/
theorem run_simulation {R : σ → τ → Prop} {acc : τ → α → τ}
    (hstep : ∀ s t a s', R s t → ok s a → next s a = some s' → R s' (acc t a))
    {s u : σ} {t : τ} {as : List α} (hR : R s t) (hok : Meets next ok s as)
    (hrun : run next s as = some u) : R u (as.foldl acc t) := by
  induction as generalizing s t with
  | nil =>
    cases hrun
    exact hR
  | cons a as ih =>
    obtain ⟨s', hs', hrun'⟩ := run_cons_eq_some.mp hrun
    exact ih (hstep s t a s' hR hok.1 hs') (hok.2 s' hs') hrun'

/-- A relation between the states of a run and the steps taken so far. -/
theorem run_history {R : σ → List α → Prop}
    (hstep : ∀ s as a s', R s as → ok s a → next s a = some s' → R s' (as ++ [a]))
    {s u : σ} {as : List α} (hR : R s []) (hok : Meets next ok s as)
    (hrun : run next s as = some u) : R u as := by
  have h := run_simulation hstep hR hok hrun
  have has : as.foldl (fun t a => t ++ [a]) [] = as := by
    rw [List.foldl_append_eq_append, List.nil_append, ← List.flatMap_def, List.flatMap_singleton']
  rwa [has] at h

/-- What every step of a run keeps holds at the end of the run. -/
theorem run_invariant {P : σ → Prop}
    (hstep : ∀ s a s', P s → ok s a → next s a = some s' → P s')
    {s u : σ} {as : List α} (hP : P s) (hok : Meets next ok s as)
    (hrun : run next s as = some u) : P u := by
  have h := @run_simulation σ α Unit next ok (fun s _ => P s) (fun _ _ => ())
    (fun s _ a s' => hstep s a s') s u () as hP hok hrun
  exact h

end Run

variable {ι S M A : Type}

/-! ## What a step does -/

/-- An action takes no message out of the pool. -/
theorem perm_act (l : List M) : l.Perm ([] ++ l) := List.Perm.refl l

/-- The handling of a message takes it out of the pool. -/
theorem perm_deliver [DecidableEq M] {l : List M} {m : M} (hm : m ∈ l) :
    l.Perm ([m] ++ l.erase m) := List.perm_cons_erase hm

variable [DecidableEq ι] {P : Protocol ι S M A}

@[simp] theorem fire_msgs (s : Net ι S M) (i : ι) (rest : List M) (r : S × List M) :
    (s.fire i rest r).msgs = rest ++ r.2 := rfl

@[simp] theorem fire_node_self (s : Net ι S M) (i : ι) (rest : List M) (r : S × List M) :
    (s.fire i rest r).node i = r.1 := by
  simp [Net.fire]

theorem fire_node_ne (s : Net ι S M) {i j : ι} (rest : List M) (r : S × List M) (h : j ≠ i) :
    (s.fire i rest r).node j = s.node j := by
  simp [Net.fire, h]

/-- A property of the local states that the node `i` keeps. -/
theorem forall_node_fire {L : ι → S → Prop} {s : Net ι S M} (h : ∀ j, L j (s.node j)) {i : ι}
    {rest : List M} {r : S × List M} (hi : L i r.1) : ∀ j, L j ((s.fire i rest r).node j) := by
  intro j
  by_cases hj : j = i
  · subst hj
    rw [fire_node_self]
    exact hi
  · rw [fire_node_ne s rest r hj]
    exact h j

/-- A property of the messages that the messages sent have. -/
theorem forall_msgs_fire {Q : M → Prop} {s : Net ι S M} (h : ∀ m ∈ s.msgs, Q m)
    {i : ι} {ms rest : List M} (hp : s.msgs.Perm (ms ++ rest)) {r : S × List M}
    (hr : ∀ m ∈ r.2, Q m) : ∀ m ∈ (s.fire i rest r).msgs, Q m := by
  intro m hm
  rcases List.mem_append.mp hm with hm | hm
  · exact h m (hp.symm.subset (List.mem_append_right _ hm))
  · exact hr m hm

/-- What a step does to a number read off the local state of one node. -/
theorem apply_fire (φ : S → ℕ) (s : Net ι S M) (i j : ι) (rest : List M) (r : S × List M) :
    φ ((s.fire i rest r).node j) + (if i = j then φ (s.node i) else 0) =
      φ (s.node j) + if i = j then φ r.1 else 0 := by
  by_cases hij : i = j
  · subst hij
    rw [fire_node_self, if_pos rfl, if_pos rfl, Nat.add_comm]
  · rw [fire_node_ne s rest r (Ne.symm hij), if_neg hij, if_neg hij]

/-- What a step does to the number of messages of a kind. -/
theorem countP_fire (q : M → Bool) {s : Net ι S M} (i : ι) {ms rest : List M}
    (h : s.msgs.Perm (ms ++ rest)) (r : S × List M) :
    (s.fire i rest r).msgs.countP q + ms.countP q = s.msgs.countP q + r.2.countP q := by
  rw [h.countP_eq, fire_msgs, List.countP_append, List.countP_append]
  omega

theorem step_act [DecidableEq M] {s : Net ι S M} {i : ι} {a : A} {r : S × List M}
    (h : P.act i (s.node i) a = some r) : step P s (.act i a) = some (s.fire i s.msgs r) := by
  simp [step, h]

theorem step_deliver [DecidableEq M] {s : Net ι S M} {m : M} (hm : m ∈ s.msgs) {r : S × List M}
    (h : P.handle (P.dest m) (s.node (P.dest m)) m = some r) :
    step P s (.deliver m) = some (s.fire (P.dest m) (s.msgs.erase m) r) := by
  simp [step, hm, h]

/-- A step is an action of one node or the handling of one message in flight, and it replaces the
local state of one node. -/
theorem step_cases [DecidableEq M] {s s' : Net ι S M} {e : Event ι M A} (h : step P s e = some s') :
    (∃ i a r, e = .act i a ∧ P.act i (s.node i) a = some r ∧ s' = s.fire i s.msgs r) ∨
    (∃ m r, e = .deliver m ∧ m ∈ s.msgs ∧ P.handle (P.dest m) (s.node (P.dest m)) m = some r ∧
      s' = s.fire (P.dest m) (s.msgs.erase m) r) := by
  cases e with
  | act i a =>
    obtain ⟨r, hr, rfl⟩ := Option.map_eq_some_iff.mp h
    exact Or.inl ⟨i, a, r, rfl, hr, rfl⟩
  | deliver m =>
    simp only [step] at h
    split at h
    · rename_i hm
      obtain ⟨r, hr, rfl⟩ := Option.map_eq_some_iff.mp h
      exact Or.inr ⟨m, r, rfl, hm, hr, rfl⟩
    · cases h

/-! ## Weights -/

variable [Fintype ι]

/-- Replacing the local state of one node changes a sum over the nodes at that node only. -/
theorem sum_update (f : ι → S → ℕ) (σ : ι → S) (i : ι) (x : S) :
    ∑ j, f j (Function.update σ i x j) + f i (σ i) = ∑ j, f j (σ j) + f i x := by
  have h1 := Finset.add_sum_erase Finset.univ (fun j => f j (Function.update σ i x j))
    (Finset.mem_univ i)
  have h2 := Finset.add_sum_erase Finset.univ (fun j => f j (σ j)) (Finset.mem_univ i)
  have h3 : ∑ j ∈ Finset.univ.erase i, f j (Function.update σ i x j) =
      ∑ j ∈ Finset.univ.erase i, f j (σ j) := by
    apply Finset.sum_congr rfl
    intro j hj
    rw [Function.update_of_ne (Finset.ne_of_mem_erase hj)]
  simp only [Function.update_self] at h1
  omega

/-- The weight after the node `i` has taken the messages `ms` out of the pool and has moved. -/
theorem weight_fire (f : ι → S → ℕ) (g : M → ℕ) {s : Net ι S M} {i : ι} {ms rest : List M}
    (h : s.msgs.Perm (ms ++ rest)) (r : S × List M) :
    (s.fire i rest r).weight f g + f i (s.node i) + (ms.map g).sum =
      s.weight f g + f i r.1 + (r.2.map g).sum := by
  have h1 := sum_update f s.node i r.1
  have h2 := (h.map g).sum_eq
  simp only [List.map_append, List.sum_append] at h2
  simp only [Net.weight, Net.fire, List.map_append, List.sum_append]
  omega

omit [DecidableEq ι] in
/-- A weight grows with the weight of the local states. -/
theorem weight_mono {f f' : ι → S → ℕ} (h : ∀ i x, f i x ≤ f' i x) (g : M → ℕ) (s : Net ι S M) :
    s.weight f g ≤ s.weight f' g :=
  Nat.add_le_add_right (Finset.sum_le_sum fun i _ => h i (s.node i)) _

omit [DecidableEq ι] in
/-- A weight is bounded by another one that bounds it at every node and every message. -/
theorem weight_le {f f' : ι → S → ℕ} {g g' : M → ℕ} {s : Net ι S M}
    (hf : ∀ i, f i (s.node i) ≤ f' i (s.node i)) (hg : ∀ m ∈ s.msgs, g m ≤ g' m) :
    s.weight f g ≤ s.weight f' g' :=
  Nat.add_le_add (Finset.sum_le_sum fun i _ => hf i) (List.sum_le_sum hg)

omit [DecidableEq ι] in
theorem weight_add (f f' : ι → S → ℕ) (g g' : M → ℕ) (s : Net ι S M) :
    s.weight (fun i x => f i x + f' i x) (fun m => g m + g' m) = s.weight f g + s.weight f' g' := by
  unfold Net.weight
  rw [Finset.sum_add_distrib, List.sum_map_add]
  omega

omit [DecidableEq ι] in
/-- The local state of a node weighs at most as much as the network. -/
theorem le_weight_node (f : ι → S → ℕ) (g : M → ℕ) (s : Net ι S M) (i : ι) :
    f i (s.node i) ≤ s.weight f g := by
  have h := Finset.single_le_sum (f := fun j => f j (s.node j)) (fun _ _ => Nat.zero_le _)
    (Finset.mem_univ i)
  exact le_add_right h

omit [DecidableEq ι] in
/-- The local state of a node and all messages in flight weigh at most as much as the network. -/
theorem le_weight_msgs (f : ι → S → ℕ) (g : M → ℕ) (s : Net ι S M) (i : ι) :
    f i (s.node i) + (s.msgs.map g).sum ≤ s.weight f g := by
  have h := Finset.single_le_sum (f := fun j => f j (s.node j)) (fun _ _ => Nat.zero_le _)
    (Finset.mem_univ i)
  exact Nat.add_le_add_right h _

omit [DecidableEq ι] in
/-- The local states of two nodes together weigh at most as much as the network. -/
theorem le_weight_pair (f : ι → S → ℕ) (g : M → ℕ) (s : Net ι S M) {i j : ι} (hij : i ≠ j) :
    f i (s.node i) + f j (s.node j) ≤ s.weight f g := by
  have h := Finset.add_le_sum (f := fun k => f k (s.node k)) (fun _ _ => Nat.zero_le _)
    (Finset.mem_univ i) (Finset.mem_univ j) hij
  exact le_add_right h

omit [DecidableEq ι] in
/-- A message in flight and the local state of a node together weigh at most as much as the
network. -/
theorem le_weight_msg (f : ι → S → ℕ) (g : M → ℕ) (s : Net ι S M) (i : ι) {m : M}
    (hm : m ∈ s.msgs) : f i (s.node i) + g m ≤ s.weight f g := by
  have h := Finset.single_le_sum (f := fun j => f j (s.node j)) (fun _ _ => Nat.zero_le _)
    (Finset.mem_univ i)
  have h' := List.single_le_sum (fun _ _ => Nat.zero_le _) _ (List.mem_map_of_mem (f := g) hm)
  exact Nat.add_le_add h h'

end Network
