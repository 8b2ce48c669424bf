import Psar.Library.Ring

/-!
# Proofs: rings of linked cells

What insertion and removal do to a ring, and that they leave all other rings as they are.
-/

namespace LinkedRing

variable {A : Type} [DecidableEq A] {m m' : Mem A} {a b c : A} {l l₁ l₂ : List A}

/-! ## Single pointers -/

omit [DecidableEq A] in
theorem SameCells.trans {m₁ m₂ m₃ : Mem A} (h : SameCells m₁ m₂) (h' : SameCells m₂ m₃) :
    SameCells m₁ m₃ := fun x => (h' x).trans (h x)

theorem sameCells_update {x y : Cell A} (hx : m a = some x) :
    SameCells m (Function.update m a (some y)) := by
  intro z
  by_cases hz : z = a
  · subst hz
    simp [hx]
  · simp [hz]

theorem setNext_spec (h : (m a).isSome = true) (b : A) :
    ∃ m', setNext m a b = some m' ∧ nextOf m' = Function.update (nextOf m) a (some b) ∧
      prevOf m' = prevOf m ∧ SameCells m m' := by
  obtain ⟨x, hx⟩ := Option.isSome_iff_exists.mp h
  refine ⟨_, Option.map_eq_some_iff.mpr ⟨x, hx, rfl⟩, ?_, ?_, sameCells_update hx⟩
  · funext z
    by_cases hz : z = a
    · subst hz
      simp [nextOf]
    · simp [nextOf, hz]
  · funext z
    by_cases hz : z = a
    · subst hz
      simp [prevOf, hx]
    · simp [prevOf, hz]

theorem setPrev_spec (h : (m a).isSome = true) (b : A) :
    ∃ m', setPrev m a b = some m' ∧ nextOf m' = nextOf m ∧
      prevOf m' = Function.update (prevOf m) a (some b) ∧ SameCells m m' := by
  obtain ⟨x, hx⟩ := Option.isSome_iff_exists.mp h
  refine ⟨_, Option.map_eq_some_iff.mpr ⟨x, hx, rfl⟩, ?_, ?_, sameCells_update hx⟩
  · funext z
    by_cases hz : z = a
    · subst hz
      simp [nextOf, hx]
    · simp [nextOf, hz]
  · funext z
    by_cases hz : z = a
    · subst hz
      simp [prevOf]
    · simp [prevOf, hz]

omit [DecidableEq A] in
theorem isSome_of_nextOf (h : nextOf m a = some b) : (m a).isSome = true := by
  obtain ⟨x, hx, -⟩ := Option.map_eq_some_iff.mp h
  rw [hx]
  rfl

omit [DecidableEq A] in
theorem isSome_of_prevOf (h : prevOf m a = some b) : (m a).isSome = true := by
  obtain ⟨x, hx, -⟩ := Option.map_eq_some_iff.mp h
  rw [hx]
  rfl

theorem insert_spec {new prev next : A} (hnew : (m new).isSome = true)
    (hprev : (m prev).isSome = true) (hnext : (m next).isSome = true) :
    ∃ m', insert m new prev next = some m' ∧
      nextOf m' = Function.update (Function.update (nextOf m) new (some next)) prev (some new) ∧
      prevOf m' = Function.update (Function.update (prevOf m) next (some new)) new (some prev) ∧
      SameCells m m' := by
  obtain ⟨m₁, h₁, hn₁, hp₁, hs₁⟩ := setPrev_spec hnext new
  obtain ⟨m₂, h₂, hn₂, hp₂, hs₂⟩ := setNext_spec ((hs₁ new).trans hnew) next
  obtain ⟨m₃, h₃, hn₃, hp₃, hs₃⟩ := setPrev_spec ((hs₂ new).trans ((hs₁ new).trans hnew)) prev
  have hs := (hs₁.trans hs₂).trans hs₃
  obtain ⟨m₄, h₄, hn₄, hp₄, hs₄⟩ := setNext_spec ((hs prev).trans hprev) new
  refine ⟨m₄, by simp [insert, h₁, h₂, h₃, h₄], ?_, ?_, hs.trans hs₄⟩
  · rw [hn₄, hn₃, hn₂, hn₁]
  · rw [hp₄, hp₃, hp₂, hp₁]

theorem join_spec {prev next : A} (hprev : (m prev).isSome = true)
    (hnext : (m next).isSome = true) :
    ∃ m', join m prev next = some m' ∧ nextOf m' = Function.update (nextOf m) prev (some next) ∧
      prevOf m' = Function.update (prevOf m) next (some prev) ∧ SameCells m m' := by
  obtain ⟨m₁, h₁, hn₁, hp₁, hs₁⟩ := setPrev_spec hnext prev
  obtain ⟨m₂, h₂, hn₂, hp₂, hs₂⟩ := setNext_spec ((hs₁ prev).trans hprev) next
  refine ⟨m₂, by simp [join, h₁, h₂], ?_, ?_, hs₁.trans hs₂⟩
  · rw [hn₂, hn₁]
  · rw [hp₂, hp₁]

theorem remove_spec {entry prev next : A} (hp : prevOf m entry = some prev)
    (hn : nextOf m entry = some next) (hprev : (m prev).isSome = true)
    (hnext : (m next).isSome = true) (p q : A) :
    ∃ m', remove m entry p q = some m' ∧
      (∀ x, x ≠ entry → nextOf m' x = Function.update (nextOf m) prev (some next) x) ∧
      (∀ x, x ≠ entry → prevOf m' x = Function.update (prevOf m) next (some prev) x) ∧
      SameCells m m' := by
  obtain ⟨m₁, h₁, hn₁, hp₁, hs₁⟩ := join_spec hprev hnext
  obtain ⟨m₂, h₂, hn₂, hp₂, hs₂⟩ := setNext_spec ((hs₁ entry).trans (isSome_of_nextOf hn)) p
  obtain ⟨m₃, h₃, hn₃, hp₃, hs₃⟩ :=
    setPrev_spec (((hs₁.trans hs₂) entry).trans (isSome_of_nextOf hn)) q
  refine ⟨m₃, by simp [remove, hp, hn, h₁, h₂, h₃], fun x hx => ?_, fun x hx => ?_,
    (hs₁.trans hs₂).trans hs₃⟩
  · rw [hn₃, hn₂, Function.update_of_ne hx, hn₁]
  · rw [hp₃, Function.update_of_ne hx, hp₂, hp₁]

/-! ## Paths -/

omit [DecidableEq A] in
theorem path_append : Path m a (l₁ ++ l₂) b ↔ ∃ c, Path m a l₁ c ∧ Path m c l₂ b := by
  induction l₁ generalizing a with
  | nil => simp [Path]
  | cons x l₁ ih => simp [Path, ih, and_assoc]

omit [DecidableEq A] in
/-- A path ends at its last cell. -/
theorem Path.dropLast_append (h : Path m a l b) : (a :: l).dropLast ++ [b] = a :: l := by
  induction l generalizing a with
  | nil =>
    cases h
    rfl
  | cons x l ih => simpa using ih h.2

omit [DecidableEq A] in
/-- A path is there as long as the pointers along it are. -/
theorem Path.congr (h : Path m a l b) (hnext : ∀ x ∈ (a :: l).dropLast, nextOf m' x = nextOf m x)
    (hprev : ∀ x ∈ l, prevOf m' x = prevOf m x) : Path m' a l b := by
  induction l generalizing a with
  | nil => exact h
  | cons x l ih =>
    refine ⟨⟨?_, ?_⟩, ih h.2 (fun y hy => hnext y ?_) fun y hy => hprev y (List.mem_cons_of_mem _ hy)⟩
    · rw [hnext a (by simp)]
      exact h.1.1
    · rw [hprev x List.mem_cons_self]
      exact h.1.2
    · simpa using Or.inr hy

omit [DecidableEq A] in
theorem Path.isSome_of_mem (h : Path m a l b) {x : A} (hx : x ∈ l) : (m x).isSome = true := by
  induction l generalizing a with
  | nil => cases hx
  | cons y l ih =>
    rcases List.mem_cons.mp hx with rfl | hx
    · exact isSome_of_prevOf h.1.2
    · exact ih h.2 hx

/-! ## Rings -/

omit [DecidableEq A] in
theorem Entries.isSome_of_mem (h : Entries m a l) {x : A} (hx : x ∈ a :: l) :
    (m x).isSome = true := by
  refine h.path.isSome_of_mem (List.mem_append.mpr ?_)
  rcases List.mem_cons.mp hx with rfl | hx
  · exact Or.inr (List.mem_singleton.mpr rfl)
  · exact Or.inl hx

omit [DecidableEq A] in
/-- A ring is there as long as the pointers of its cells are. -/
theorem Entries.congr (h : Entries m a l) (hsame : ∀ x ∈ a :: l, nextOf m' x = nextOf m x ∧
    prevOf m' x = prevOf m x) : Entries m' a l := by
  refine ⟨h.nodup, h.path.congr (fun x hx => (hsame x ?_).1) fun x hx => (hsame x ?_).2⟩
  · rw [← List.cons_append, List.dropLast_concat] at hx
    exact hx
  · rcases List.mem_append.mp hx with hx | hx
    · exact List.mem_cons_of_mem _ hx
    · exact List.mem_cons.mpr (Or.inl (List.mem_singleton.mp hx))

omit [DecidableEq A] in
/-- The first entry, or the head itself. -/
theorem Entries.nextOf_head (h : Entries m a l) : nextOf m a = some (l.headD a) := by
  have hpath := h.path
  cases l with
  | nil => exact hpath.1.1
  | cons x l => exact hpath.1.1

omit [DecidableEq A] in
/-- The pointers around an entry. -/
theorem Entries.split (h : Entries m a (l₁ ++ c :: l₂)) :
    ∃ p n l₃, l₂ ++ [a] = n :: l₃ ∧ Path m a l₁ p ∧ Linked m p c ∧ Linked m c n ∧
      Path m n l₃ a := by
  have hpath := h.path
  rw [List.append_assoc, path_append] at hpath
  obtain ⟨p, h₁, hpc, h₂⟩ := hpath
  change Path m c (l₂ ++ [a]) a at h₂
  cases hl : l₂ ++ [a] with
  | nil => simp at hl
  | cons n l₃ =>
    rw [hl] at h₂
    exact ⟨p, n, l₃, rfl, h₁, hpc, h₂.1, h₂.2⟩

/-- The new entry is the first one of its ring, and all other cells are as before. -/
theorem push_spec (h : Entries m a l) {new : A} (hnew : (m new).isSome = true)
    (hout : new ∉ a :: l) :
    ∃ m', push m new a = some m' ∧ Entries m' a (new :: l) ∧ SameCells m m' ∧
      ∀ x, x ∉ new :: a :: l → nextOf m' x = nextOf m x ∧ prevOf m' x = prevOf m x := by
  have hhead := h.nextOf_head
  have hmem : l.headD a ∈ a :: l := by
    cases l <;> simp
  obtain ⟨m', hm', hn, hp, hs⟩ := insert_spec hnew (h.isSome_of_mem List.mem_cons_self)
    (h.isSome_of_mem hmem)
  have hne : new ≠ a := fun h => hout (by simp [h])
  refine ⟨m', by rw [push, hhead]; exact hm', ⟨?_, ?_⟩, hs, ?_⟩
  · have hnodup := h.nodup
    simp only [List.nodup_cons, List.mem_cons, not_or] at hnodup hout ⊢
    exact ⟨⟨Ne.symm hne, hnodup.1⟩, hout.2, hnodup.2⟩
  · have hpath := h.path
    have hnodup := h.nodup
    cases l with
    | nil =>
      refine ⟨⟨?_, ?_⟩, ⟨?_, ?_⟩, rfl⟩ <;> simp [hn, hp, hne, Ne.symm hne]
    | cons x l =>
      have hx : x ≠ a ∧ x ≠ new := ⟨fun h => by simp [h] at hnodup, fun h => by simp [h] at hout⟩
      have htail : Path m x (l ++ [a]) a := hpath.2
      refine ⟨⟨?_, ?_⟩, ⟨?_, ?_⟩, htail.congr ?_ ?_⟩
      · simp [hn]
      · simp [hp]
      · simp [hn, hne]
      · simp [hp, hx.2]
      · intro y hy
        rw [← List.cons_append, List.dropLast_concat] at hy
        have hya : y ≠ a := fun h => by subst h; simp_all
        have hyn : y ≠ new := fun h => by subst h; simp_all
        rw [hn, Function.update_of_ne hya, Function.update_of_ne hyn]
      · intro y hy
        have hyx : y ≠ x := fun h => by subst h; simp_all
        have hyn : y ≠ new := fun h => by subst h; simp_all
        rw [hp]
        simp [hyx, hyn]
  · intro x hx
    simp only [List.mem_cons, not_or] at hx
    obtain ⟨hxn, hxa, hxl⟩ := hx
    have hxh : x ≠ l.headD a := by
      intro h
      rw [← h] at hmem
      exact (List.mem_cons.mp hmem).elim hxa hxl
    rw [hn, hp, Function.update_of_ne hxa, Function.update_of_ne hxn, Function.update_of_ne hxn,
      Function.update_of_ne hxh]
    exact ⟨rfl, rfl⟩

/-- The entry is taken out of its ring, and all cells outside the ring are as before. -/
theorem remove_entry (h : Entries m a (l₁ ++ c :: l₂)) (p q : A) :
    ∃ m', remove m c p q = some m' ∧ Entries m' a (l₁ ++ l₂) ∧ SameCells m m' ∧
      ∀ x, x ∉ a :: (l₁ ++ c :: l₂) → nextOf m' x = nextOf m x ∧ prevOf m' x = prevOf m x := by
  obtain ⟨u, v, l₃, hl, h₁, ⟨hu, hcu⟩, ⟨hcv, hv⟩, h₃⟩ := h.split
  obtain ⟨m', hm', hn, hp, hs⟩ := remove_spec hcu hcv (isSome_of_nextOf hu) (isSome_of_prevOf hv) p q
  have hlast := h₁.dropLast_append
  -- the cells of the ring are all different
  have hleft : ((a :: l₁) ++ c :: l₂).Nodup := h.nodup
  obtain ⟨hnodup₁, hnodup₂, hdis⟩ := List.nodup_append.mp hleft
  obtain ⟨hc₂, hnodup₂⟩ := List.nodup_cons.mp hnodup₂
  have hu₁ : u ∈ a :: l₁ := by rw [← hlast]; exact List.mem_append_right _ List.mem_cons_self
  have hv₂ : v = a ∨ v ∈ l₂ := by
    have : v ∈ l₂ ++ [a] := by rw [hl]; exact List.mem_cons_self
    simpa [or_comm] using this
  have hl₃ : ∀ x ∈ l₃, x = a ∨ x ∈ l₂ := by
    intro x hx
    have : x ∈ l₂ ++ [a] := by rw [hl]; exact List.mem_cons_of_mem _ hx
    simpa [or_comm] using this
  have hc₁ : ∀ x ∈ a :: l₁, x ≠ c := fun x hx => hdis x hx c List.mem_cons_self
  have h₁₂ : ∀ x ∈ a :: l₁, ∀ y ∈ l₂, x ≠ y := fun x hx y hy =>
    hdis x hx y (List.mem_cons_of_mem _ hy)
  have hc : ∀ x, x = a ∨ x ∈ l₂ → x ≠ c := by
    rintro x (rfl | hx) rfl
    · exact hc₁ _ List.mem_cons_self rfl
    · exact hc₂ hx
  have hnodup₃ : (v :: l₃).Nodup := by
    rw [← hl]
    refine List.nodup_append.mpr ⟨hnodup₂, List.nodup_singleton a, fun x hx y hy => ?_⟩
    rw [List.mem_singleton.mp hy]
    exact (h₁₂ a List.mem_cons_self x hx).symm
  refine ⟨m', hm', ⟨?_, ?_⟩, hs, ?_⟩
  · exact List.nodup_append.mpr ⟨hnodup₁, hnodup₂, h₁₂⟩
  · rw [List.append_assoc, path_append]
    refine ⟨u, h₁.congr (fun x hx => ?_) fun x hx => ?_, ?_⟩
    · have hxu : x ≠ u := by
        rw [← hlast, List.nodup_append] at hnodup₁
        exact hnodup₁.2.2 x hx u (List.mem_singleton.mpr rfl)
      rw [hn x (hc₁ x (List.mem_of_mem_dropLast hx)), Function.update_of_ne hxu]
    · have hx' : x ∈ a :: l₁ := List.mem_cons_of_mem _ hx
      have hxv : x ≠ v := by
        rcases hv₂ with rfl | hv₂
        · rintro rfl
          exact (List.nodup_cons.mp hnodup₁).1 hx
        · exact h₁₂ x hx' v hv₂
      rw [hp x (hc₁ x hx'), Function.update_of_ne hxv]
    · rw [hl]
      refine ⟨⟨?_, ?_⟩, h₃.congr (fun x hx => ?_) fun x hx => ?_⟩
      · rw [hn u (hc₁ u hu₁), Function.update_self]
      · rw [hp v (hc v hv₂), Function.update_self]
      · rw [← hl, List.dropLast_concat] at hx
        rw [hn x (hc x (Or.inr hx)), Function.update_of_ne (h₁₂ u hu₁ x hx).symm]
      · have hxv : x ≠ v := by
          rintro rfl
          exact (List.nodup_cons.mp hnodup₃).1 hx
        rw [hp x (hc x (hl₃ x hx)), Function.update_of_ne hxv]
  · intro x hx
    have hx₁ : ∀ y ∈ a :: l₁, x ≠ y := fun y hy hxy => hx (by simp at hy ⊢; rw [hxy]; tauto)
    have hx₂ : ∀ y ∈ c :: l₂, x ≠ y := fun y hy hxy => hx (by simp at hy ⊢; rw [hxy]; tauto)
    have hxv : x ≠ v := by
      rcases hv₂ with rfl | hv₂
      · exact hx₁ _ List.mem_cons_self
      · exact hx₂ v (List.mem_cons_of_mem _ hv₂)
    have hxc := hx₂ c List.mem_cons_self
    rw [hn x hxc, hp x hxc, Function.update_of_ne (hx₁ u hu₁), Function.update_of_ne hxv]
    exact ⟨rfl, rfl⟩

/-! ## Memory -/

theorem alloc_spec (h : Entries m a l) {new : A} (hout : new ∉ a :: l) (old : Cell A) :
    Entries (alloc m new old) a l := by
  refine h.congr fun x hx => ?_
  have hne : x ≠ new := by
    rintro rfl
    exact hout hx
  simp [alloc, nextOf, prevOf, hne]

theorem free_spec (hc : (m c).isSome = true) :
    ∃ m', free m c = some m' ∧ (∀ x, x ≠ c → m' x = m x) ∧ m' c = none := by
  obtain ⟨x, hx⟩ := Option.isSome_iff_exists.mp hc
  refine ⟨_, Option.map_eq_some_iff.mpr ⟨x, hx, rfl⟩, fun y hy => Function.update_of_ne hy _ _, ?_⟩
  exact Function.update_self ..

/-! ## Loops -/

omit [DecidableEq A] in
theorem Entries.nextOf_entry (h : Entries m a (l₁ ++ c :: l₂)) :
    nextOf m c = some (l₂.headD a) := by
  obtain ⟨u, v, l₃, hl, -, -, ⟨hcv, -⟩, -⟩ := h.split
  rw [hcv]
  cases l₂ with
  | nil => simp_all
  | cons x l₂ => simp_all

theorem walk_spec (l₁ : List A) {fuel : ℕ} (h : Entries m a (l₁ ++ l₂)) (hfuel : l₂.length < fuel) :
    walk m a fuel (l₂.headD a) = some l₂ := by
  induction l₂ generalizing l₁ fuel with
  | nil =>
    cases fuel with
    | zero => simp at hfuel
    | succ fuel => simp [walk]
  | cons x l₂ ih =>
    cases fuel with
    | zero => simp at hfuel
    | succ fuel =>
      have hx : x ≠ a := by
        rintro rfl
        have := h.nodup
        simp at this
      have hrest := ih (l₁ ++ [x]) (by simpa using h) (by simpa using hfuel)
      rw [List.headD_cons, walk, if_neg hx, h.nextOf_entry, Option.bind_eq_bind, Option.bind_some,
        hrest]
      rfl

/-- The loop goes through the entries in their order. -/
theorem forEach_spec {fuel : ℕ} (h : Entries m a l) (hfuel : l.length < fuel) :
    forEach m a fuel = some l := by
  have hwalk := walk_spec [] h hfuel
  rw [forEach, h.nextOf_head]
  exact hwalk

omit [DecidableEq A] in
theorem Entries.prevOf_entry (h : Entries m a (l₁ ++ c :: l₂)) :
    prevOf m c = some (l₁.getLastD a) := by
  obtain ⟨u, v, l₃, -, h₁, ⟨-, hcu⟩, -, -⟩ := h.split
  have hlast := h₁.dropLast_append
  rw [hcu]
  have hu : (a :: l₁).getLast? = some u := by
    rw [← hlast]
    simp
  simpa [List.getLast?_cons] using hu.symm

omit [DecidableEq A] in
theorem Entries.prevOf_head (h : Entries m a l) : prevOf m a = some (l.getLastD a) := by
  have hpath := h.path
  rw [path_append] at hpath
  obtain ⟨u, h₁, ⟨-, hu⟩, -⟩ := hpath
  have hlast := h₁.dropLast_append
  rw [hu]
  have hu' : (a :: l).getLast? = some u := by
    rw [← hlast]
    simp
  simpa [List.getLast?_cons] using hu'.symm

theorem walkBack_spec (l₂ : List A) {q : A → Bool} {fuel : ℕ} (h : Entries m a (l₁ ++ l₂))
    (hfuel : l₁.length < fuel) :
    walkBack m a q fuel (l₁.getLastD a) = some (l₁.reverse.find? q) := by
  induction l₁ using List.reverseRecOn generalizing l₂ fuel with
  | nil =>
    cases fuel with
    | zero => simp at hfuel
    | succ fuel => simp [walkBack]
  | append_singleton l₁ x ih =>
    cases fuel with
    | zero => simp at hfuel
    | succ fuel =>
      have hsplit : Entries m a (l₁ ++ x :: l₂) := by simpa using h
      have hx : x ≠ a := by
        rintro rfl
        have := h.nodup
        simp at this
      have hrest := ih (x :: l₂) hsplit (by simpa using hfuel)
      have hlast : (l₁ ++ [x]).getLastD a = x := by simp
      rw [hlast, walkBack, if_neg hx, List.reverse_append, List.reverse_singleton,
        List.singleton_append, List.find?_cons]
      cases hq : q x with
      | true => rfl
      | false =>
        rw [hsplit.prevOf_entry]
        exact hrest

/-- The backward loop finds the last entry with `q`. -/
theorem findBack_spec {q : A → Bool} {fuel : ℕ} (h : Entries m a l) (hfuel : l.length < fuel) :
    findBack m a q fuel = some (l.reverse.find? q) := by
  have hwalk := walkBack_spec [] (q := q) (by simpa using h) hfuel
  rw [findBack, h.prevOf_head]
  exact hwalk

omit [DecidableEq A] in
/-- The next cell can be read at every entry and at the head. -/
theorem Entries.exists_next (l₁ l₂ : List A) (h : Entries m a (l₁ ++ l₂)) :
    ∃ next, nextOf m (l₂.headD a) = some next ∧ ∀ x l₃, l₂ = x :: l₃ → next = l₃.headD a := by
  cases l₂ with
  | nil => exact ⟨_, h.nextOf_head, fun _ _ hnil => absurd hnil (by simp)⟩
  | cons x l₃ =>
    refine ⟨_, h.nextOf_entry, fun y l₄ heq => ?_⟩
    obtain ⟨rfl, rfl⟩ := List.cons.inj heq
    rfl

section Safe

variable {I : List A → Mem A → Prop} {keep stop : A → Bool}
  {body : Mem A → A → Option (Mem A × Bool)}

theorem walkSafe_spec (l₁ : List A) (hI : ∀ l m, I l m → Entries m a l)
    (hbody : ∀ l₁ x l₂ m, I (l₁ ++ x :: l₂) m → ∃ m', body m x = some (m', stop x) ∧
      I (l₁ ++ (if keep x then [x] else []) ++ l₂) m')
    {fuel : ℕ} (h : I (l₁ ++ l₂) m) (hfuel : l₂.length < fuel) {next : A}
    (hnext : ∀ x l₃, l₂ = x :: l₃ → next = l₃.headD a) :
    ∃ m', walkSafe a body fuel m (l₂.headD a) next = some m' ∧
      I (l₁ ++ sweep keep stop l₂) m' := by
  induction l₂ generalizing l₁ fuel m next with
  | nil =>
    cases fuel with
    | zero => simp at hfuel
    | succ fuel => exact ⟨m, by simp [walkSafe], h⟩
  | cons x l₃ ih =>
    cases fuel with
    | zero => simp at hfuel
    | succ fuel =>
      obtain rfl := hnext x l₃ rfl
      have hx : x ≠ a := by
        rintro rfl
        have := (hI _ _ h).nodup
        simp at this
      obtain ⟨m', hm', h'⟩ := hbody l₁ x l₃ m h
      rw [List.headD_cons, walkSafe, if_neg hx, hm', Option.bind_eq_bind, Option.bind_some]
      cases hstop : stop x with
      | true => exact ⟨m', rfl, by simpa [sweep, hstop] using h'⟩
      | false =>
        obtain ⟨next', hnext', hlast⟩ := (hI _ _ h').exists_next _ _
        obtain ⟨m'', hm'', h''⟩ := ih _ h' (by simpa using hfuel) hlast
        refine ⟨m'', ?_, by simpa [sweep, hstop] using h''⟩
        simp only [Bool.false_eq_true, if_false, hnext']
        exact hm''

/-- The rule for loops that take entries out: `I l m` is an invariant for the memory `m` in which the
ring has the entries `l`, and the body keeps it. -/
theorem forEachSafe_spec (hI : ∀ l m, I l m → Entries m a l)
    (hbody : ∀ l₁ x l₂ m, I (l₁ ++ x :: l₂) m → ∃ m', body m x = some (m', stop x) ∧
      I (l₁ ++ (if keep x then [x] else []) ++ l₂) m')
    {fuel : ℕ} (h : I l m) (hfuel : l.length < fuel) :
    ∃ m', forEachSafe a body fuel m = some m' ∧ I (sweep keep stop l) m' := by
  obtain ⟨next, hnext, hlast⟩ := (hI l m h).exists_next [] l
  obtain ⟨m', hm', h'⟩ := walkSafe_spec [] hI hbody h hfuel hlast
  refine ⟨m', ?_, h'⟩
  rw [forEachSafe, (hI l m h).nextOf_head, Option.bind_eq_bind, Option.bind_some, hnext]
  exact hm'

end Safe

omit [DecidableEq A] in
/-- Taking out everything. -/
theorem sweep_none (l : List A) : sweep (fun _ => false) (fun _ => false) l = [] := by
  induction l with
  | nil => rfl
  | cons x l ih => simpa [sweep] using ih

omit [DecidableEq A] in
theorem sweep_filter (q : A → Bool) (l : List A) : sweep q (fun _ => false) l = l.filter q := by
  induction l with
  | nil => rfl
  | cons x l ih => cases hq : q x <;> simp [sweep, hq, ih]

omit [DecidableEq A] in
/-- Taking out the first entry with `q`. -/
theorem sweep_eraseP (q : A → Bool) (l : List A) : sweep (fun x => !q x) q l = l.eraseP q := by
  induction l with
  | nil => rfl
  | cons x l ih => cases hq : q x <;> simp [sweep, hq, ih]

end LinkedRing
