import Psar.Sorting.SharedArray
import Psar.Sorting.Proofs.ParallelSortProofs
import Psar.Dsm.Proofs.RegionsProofs
import Psar.Library.Proofs.SimulationProofs

/-!
# Proofs: the array in the distributed memory

The regions that the nodes have unlocked can be run one after the other, which is what the parallel
sort does; so the memory holds its array.
-/

namespace Sorting

open Dsm.System (lastStore lockedRun oneRegion onPage initState lockOn faultOn)
open Transactions (Access)

section Performs

variable {α Node : Type} [LinearOrder α] [Zero α] {a : Args} {lib : CLib α} {who : Step → Node}
  {s : Program α} {c c' : Control} {xs : List (Node × List (Access ℕ (List α)))}

/-- A region that is still to come can be run. -/
theorem exists_step (hfits : a.Fits) (hfuel : 128 < lib.fuel ∧ a.segmentSize < lib.fuel)
    (hinv : Inv a lib s) {e : Step} (he : s.control.enabled a e) :
    ∃ s', s.step a lib e = some s' ∧ Inv a lib s' := by
  cases e with
  | mainNode =>
    obtain ⟨s', hs', hinv', -⟩ := step_mainNode hfits hfuel.1 hinv he
    exact ⟨s', hs', hinv'⟩
  | workerNode nodeId =>
    obtain ⟨s', hs', hinv', -⟩ := step_workerNode hfits hfuel.2 hinv he
    exact ⟨s', hs', hinv'⟩

/-- If the loads of all regions find the memory that the regions before have left, the regions are
a run of the program. -/
theorem Performs.run (hfits : a.Fits) (hfuel : 128 < lib.fuel ∧ a.segmentSize < lib.fuel)
    (h : Performs a lib who c xs c') (hinv : Inv a lib s) (hc : s.control = c)
    {content : ℕ → List α}
    (hserial : Transactions.serialRun (pages s.tab) xs = some content) :
    ∃ steps s', Network.run (Program.step a lib) s steps = some s' ∧ s'.control = c' ∧
      content = pages s'.tab := by
  induction h generalizing s with
  | nil c => exact ⟨[], s, rfl, hc, (Option.some.inj hserial).symm⟩
  | @cons c c₁ c' e accesses xs hregion _ ih =>
    subst hc
    obtain ⟨he, hleaves⟩ := hregion
    rw [Transactions.serialRun, List.flatMap_cons, Network.run_append] at hserial
    obtain ⟨content₁, haccess, hrest⟩ := Option.bind_eq_some_iff.mp hserial
    obtain ⟨s₁, hs₁, hinv₁⟩ := exists_step hfits hfuel hinv he
    -- the loads have found the array of `s`
    have hs : Program.mk s.tab s.control.main s.control.ended [] = s := by
      rw [← hinv.log]
      rfl
    obtain ⟨rfl, hc₁⟩ := hleaves s.tab content₁ s₁ hinv.tab.length haccess (hs.symm ▸ hs₁)
    obtain ⟨steps, s', hsteps, hs'⟩ := ih hinv₁ hc₁.symm hrest
    exact ⟨e :: steps, s', Network.run_cons_eq_some.mpr ⟨s₁, hs₁, hsteps⟩, hs'⟩

end Performs

section Shared

variable {α Node : Type} [LinearOrder α] [Zero α] [DecidableEq Node] [Fintype Node] {a : Args}
  {lib : CLib α} {nodeList : Node → List Node} {dsm : BitVec 64}
  {s : Dsm.System.State Node (List α)}

/-- The parallel sort on the distributed memory: in every run of all nodes and pages in which the
nodes do in their regions what `main.c` does with what they load, the page locks hand the lock over
in order and no node relies on its copy of a page while an `INVALIDATION` of it is in flight, the
regions are a run of the program, and the pages hold its array whenever nothing is locked. It has
the elements it was filled with, and when `main_node` has merged the segments, it is in order. -/
theorem parallelSort_shared (hlist : ∀ n m, m ∈ nodeList n ↔ m ≠ n) {argc : ℕ}
    {port number size : BitVec 32} (hargs : mainArgs argc port number size = .ok a)
    (hsize : 0 < size.toInt) (hlt : a.tabSize < 2 ^ 31)
    (hfuel : 128 < lib.fuel ∧ a.segmentSize < lib.fuel) {o : Node} {who : Step → Node}
    {es : List (Dsm.System.Event Node (List α))}
    (hrun : Network.run (Dsm.System.step nodeList dsm)
      (initState o fun page _ => pages (Program.init a : Program α).tab page) es = some s)
    (hok : Network.Meets (Dsm.System.step nodeList dsm) (fun s e => (oneRegion dsm s e &&
        onPage (fun t x => Sigsegv.lockInOrder t x && Sigsegv.upToDate t x) s e) = true)
      (initState o fun page _ => pages (Program.init a : Program α).tab page) es)
    {c : Control} (hperforms : Performs a lib who (Program.init a : Program α).control
      (Transactions.sections (lockedRun nodeList dsm
        (initState o fun page _ => pages (Program.init a).tab page) es)) c)
    (hclosed : ∀ n, (s.ctl n).opened = []) :
    ∃ steps p, Network.run (Program.step a lib) (Program.init a) steps = some p ∧ p.control = c ∧
      (∀ page, es.foldl (lastStore page) (pages (Program.init a).tab page) = pages p.tab page) ∧
      (p.main ≠ .fill → p.tab.Perm (filled a lib)) ∧
      (p.main = .check ∨ p.main = .leave → p.tab.Pairwise (· ≤ ·)) := by
  have hfits := fits_of_mainArgs hargs hsize hlt
  obtain ⟨l, t, hshows, hf, hinv, hserial⟩ := Dsm.System.transactions_run hlist hrun hok
  obtain ⟨steps, p, hsteps, hcontrol, hcontent⟩ :=
    hperforms.run hfits hfuel (inv_init a lib) rfl hserial
  have htab := (inv_run hfits hfuel hsteps).tab
  refine ⟨steps, p, hsteps, hcontrol, fun page => ?_, fun hpc => htab.perm hpc, fun hpc => ?_⟩
  · rw [← hcontent]
    exact (hshows.committed hf hinv fun n r hr => by simp [hclosed n] at hr).symm
  · rcases hpc with hmain | hmain <;> rw [hmain] at htab <;> exact htab.2

end Shared

/-! ## One worker -/

section OneWorker

variable {Node C : Type}

/-- A region of one page, which the node `n` locks with the steps `lock`. -/
def regionOn (n : Node) (k : PageLock.LockType) (lock accesses : List (Dsm.System.Event Node C)) :
    List (Dsm.System.Event Node C) :=
  [.lockRegion n ⟨k, 0x10000, 4096⟩] ++ lock ++ [.ret n] ++ accesses ++
    [.unlockRegion n ⟨k, 0x10000, 4096⟩, .page n 0 .release, .page n 0 .unlock, .ret n]

/-- The node `n`, which has the page, loads it and stores `new`. -/
def storeOn (n : Node) (new : C) : List (Dsm.System.Event Node C) :=
  [.page n 0 (.sigsevHandler true), .page n 0 .sigsevReturn, .page n 0 .load,
    .page n 0 (.store new)]

/-- The node `a` fills the page with `x`, the node `b` turns it into `y`, and `a` loads it and turns
it into `z`. -/
def sortOn (a b : Node) (x y z : C) : List (Dsm.System.Event Node C) :=
  regionOn a .write [.page a 0 (.lock .write), .page a 0 .askLock, .next a] (storeOn a x) ++
  [.deliver 0 (.data (.invalidation b a))] ++
  regionOn b .write (lockOn a b 0 .write)
    (faultOn a b 0 true x ++ [.page b 0 .load, .page b 0 (.store y)]) ++
  [.deliver 0 (.data (.invalidation a b))] ++
  regionOn a .read (lockOn b a 0 .read) (faultOn b a 0 false y ++ [.page a 0 .load]) ++
  [.deliver 0 (.lock (.unlock b a a .read))] ++
  regionOn a .write (lockOn b a 0 .write) (storeOn a z)

/-- One worker, with an array of one page. -/
def oneWorker : Args := ⟨1, 4096, by decide, by decide⟩

/-- The array of one worker in order. -/
def inOrder : List ℤ := (List.range 128).map (fun k : ℕ => (k : ℤ) - 127) ++ List.replicate 3968 0

theorem inOrder_perm : inOrder.Perm (filled oneWorker descendingLib) := by
  have hreverse : (List.range 128).map (fun k : ℕ => (k : ℤ) - 127) =
      ((List.range 128).map descendingLib.rand).reverse := by decide +kernel
  rw [inOrder, hreverse]
  exact (List.reverse_perm _).append_right _

theorem inOrder_pairwise : inOrder.Pairwise (· ≤ ·) := by
  refine List.pairwise_append.mpr ⟨?_, List.pairwise_replicate.mpr (Or.inr le_rfl), ?_⟩
  · exact List.pairwise_map.mpr (List.pairwise_lt_range.imp fun hlt => by omega)
  · intro x hx y hy
    obtain ⟨k, hk, rfl⟩ := List.mem_map.mp hx
    have hlt := List.mem_range.mp hk
    rw [List.eq_of_mem_replicate hy]
    omega

theorem eq_inOrder {tab : List ℤ} (hperm : tab.Perm (filled oneWorker descendingLib))
    (hsorted : tab.Pairwise (· ≤ ·)) : tab = inOrder :=
  List.Perm.eq_of_pairwise' hsorted inOrder_pairwise (hperm.trans inOrder_perm.symm)

theorem fits_oneWorker : oneWorker.Fits := ⟨by decide, by decide, by decide⟩

theorem pages_zero {tab : List ℤ} (hlen : tab.length = oneWorker.tabSize) : pages tab 0 = tab := by
  rw [pages, segment, Nat.zero_mul, List.drop_zero]
  exact List.take_of_length_le hlen.le

theorem pages_eq_nil {tab : List ℤ} (hlen : tab.length = oneWorker.tabSize) {page : ℕ}
    (hpage : page ≠ 0) : pages tab page = [] := by
  have hsize : pageSize.toNat = oneWorker.tabSize := rfl
  refine List.take_eq_nil_of_eq_nil (List.drop_eq_nil_of_le ?_)
  rw [hlen, hsize]
  exact Nat.le_mul_of_pos_left _ (Nat.pos_of_ne_zero hpage)

/-- Only the first page has elements of the array. -/
theorem pages_update {tab new : List ℤ} (hlen : tab.length = oneWorker.tabSize)
    (hnew : new.length = oneWorker.tabSize) :
    Function.update (pages tab) 0 new = pages new := by
  funext page
  by_cases hpage : page = 0
  · subst hpage
    rw [Function.update_self, pages_zero hnew]
  · rw [Function.update_of_ne hpage, pages_eq_nil hlen hpage, pages_eq_nil hnew hpage]

theorem step_fill : (Program.init oneWorker : Program ℤ).step oneWorker descendingLib .mainNode =
    some ⟨filled oneWorker descendingLib, .poll, [], []⟩ := by
  have hfill : mainNode oneWorker descendingLib (List.replicate oneWorker.tabSize 0) .fill [] =
      some ((filled oneWorker descendingLib, .poll), []) := mainNode_fill fits_oneWorker (by decide)
  simp only [Program.step, Program.init, hfill]
  rfl

theorem step_sort : (⟨filled oneWorker descendingLib, .poll, [], []⟩ : Program ℤ).step oneWorker
    descendingLib (.workerNode 1) = some ⟨inOrder, .poll, [1], []⟩ := by
  have hfuel : oneWorker.segmentSize < descendingLib.fuel := by decide
  obtain ⟨tab', heq, hperm, hsorted, -⟩ := workerNode_eq fits_oneWorker hfuel
    (length_filled oneWorker descendingLib) (le_refl 1) le_rfl
  have hsegment : segment tab' oneWorker.segmentSize 0 = tab' :=
    pages_zero (hperm.length_eq.trans (length_filled oneWorker descendingLib))
  obtain rfl := eq_inOrder hperm (hsegment ▸ hsorted)
  simp only [Program.step, heq]
  rfl

theorem step_inOrder {pc : MainPc} (hpc : pc = .poll ∨ pc = .merge) :
    (⟨inOrder, pc, [1], []⟩ : Program ℤ).step oneWorker descendingLib .mainNode =
      some ⟨inOrder, pc.next true, [1], []⟩ := by
  have hsegments : SegmentsSorted oneWorker inOrder := segmentsSorted_of_pairwise inOrder_pairwise
  have hinv : Inv oneWorker descendingLib ⟨inOrder, pc, [1], []⟩ := by
    refine ⟨rfl, ?_⟩
    rcases hpc with rfl | rfl
    · exact inOrder_perm
    · exact ⟨inOrder_perm, hsegments⟩
  obtain ⟨⟨tab, main, ended, log⟩, hs', hinv', hmain, hended, hsame⟩ :=
    step_mainNode fits_oneWorker (by decide) hinv (by rcases hpc with rfl | rfl <;> decide)
  simp only [hsegments, decide_true] at hmain hended
  obtain rfl : log = [] := hinv'.log
  have htab : tab = inOrder := by
    rcases hpc with rfl | rfl
    · exact hsame rfl
    · have hexpected := hinv'.tab
      simp only [hmain] at hexpected
      exact eq_inOrder hexpected.1 hexpected.2
  rw [hs', htab, hmain, hended]

/-- A region that loads the page first is one of the program with the array that it finds. -/
theorem region_of_load {tab tab' : List ℤ} {c c' : Control} {e : Step}
    {accesses : List (Access ℕ (List ℤ))} (he : c.enabled oneWorker e)
    (hstep : (Program.mk tab c.main c.ended []).step oneWorker descendingLib e =
      some ⟨tab', c'.main, c'.ended, []⟩)
    (haccess : Network.run Access.step (pages tab) accesses = some (pages tab')) :
    Region oneWorker descendingLib e (.load 0 tab :: accesses) c c' := by
  refine ⟨he, fun found content s' hfound hrun hs' => ?_⟩
  obtain ⟨content₁, hload, hrest⟩ := Network.run_cons_eq_some.mp hrun
  obtain ⟨heq, hcontent⟩ := Option.ite_none_right_eq_some.mp hload
  obtain rfl : tab = found := heq.trans (pages_zero hfound)
  obtain rfl := Option.some.inj hcontent
  obtain rfl := Option.some.inj (haccess.symm.trans hrest)
  obtain rfl := Option.some.inj (hstep.symm.trans hs')
  exact ⟨rfl, rfl⟩

theorem access_store {tab new : List ℤ} (hlen : tab.length = oneWorker.tabSize)
    (hnew : new.length = oneWorker.tabSize) :
    Network.run Access.step (pages tab) [.store 0 new] = some (pages new) :=
  congrArg some (pages_update hlen hnew)

/-- The regions of the nodes: the fill, the segment of the worker, a turn of the loop of
`main_node`, and the merge. -/
theorem performs_sortOn : Performs oneWorker descendingLib
    (fun e => if e = .mainNode then (0 : Fin 2) else 1) (Program.init oneWorker : Program ℤ).control
    [(0, [.load 0 (List.replicate 4096 0), .store 0 (filled oneWorker descendingLib)]),
      (1, [.load 0 (filled oneWorker descendingLib), .store 0 inOrder]),
      (0, [.load 0 inOrder]), (0, [.load 0 inOrder, .store 0 inOrder])] ⟨.check, [1]⟩ := by
  have hzero : (List.replicate 4096 (0 : ℤ)).length = oneWorker.tabSize := List.length_replicate
  have hfilled := length_filled oneWorker descendingLib
  have horder : inOrder.length = oneWorker.tabSize := inOrder_perm.length_eq.trans hfilled
  have hfill : Region oneWorker descendingLib .mainNode
      [.load 0 (List.replicate 4096 0), .store 0 (filled oneWorker descendingLib)]
      ⟨.fill, []⟩ ⟨.poll, []⟩ :=
    region_of_load (by decide) step_fill (access_store hzero hfilled)
  have hsort : Region oneWorker descendingLib (.workerNode 1)
      [.load 0 (filled oneWorker descendingLib), .store 0 inOrder] ⟨.poll, []⟩ ⟨.poll, [1]⟩ :=
    region_of_load (by decide) step_sort (access_store hfilled horder)
  have hpoll : Region oneWorker descendingLib .mainNode [.load 0 inOrder]
      ⟨.poll, [1]⟩ ⟨.merge, [1]⟩ :=
    region_of_load (by decide) (step_inOrder (Or.inl rfl)) rfl
  have hmerge : Region oneWorker descendingLib .mainNode [.load 0 inOrder, .store 0 inOrder]
      ⟨.merge, [1]⟩ ⟨.check, [1]⟩ :=
    region_of_load (by decide) (step_inOrder (Or.inr rfl)) (access_store horder horder)
  exact .cons (e := .mainNode) hfill (.cons (e := .workerNode 1) hsort
    (.cons (e := .mainNode) hpoll (.cons (e := .mainNode) hmerge (.nil _))))

/-- The equality of arrays by `==`, which stops at the first difference and does not build up a
proof for the elements after it. -/
def decEqArray : DecidableEq (List ℤ) := fun x y => decidable_of_iff ((x == y) = true) beq_iff_eq

theorem run_sortOn (inst : DecidableEq (List ℤ)) :
    (Network.run (Dsm.System.step (fun n => [n + 1]) 0x10000)
      (initState (0 : Fin 2) fun page _ => pages (Program.init oneWorker).tab page)
      (sortOn 0 1 (filled oneWorker descendingLib) inOrder inOrder)).any
        (fun s => ∀ n, (s.ctl n).opened = []) = true ∧
    Network.Meets (Dsm.System.step (fun n => [n + 1]) 0x10000)
      (fun s e => (oneRegion 0x10000 s e &&
        onPage (fun t x => Sigsegv.lockInOrder t x && Sigsegv.upToDate t x) s e) = true)
      (initState (0 : Fin 2) fun page _ => pages (Program.init oneWorker).tab page)
      (sortOn 0 1 (filled oneWorker descendingLib) inOrder inOrder) ∧
    Transactions.sections (lockedRun (fun n => [n + 1]) 0x10000
      (initState (0 : Fin 2) fun page _ => pages (Program.init oneWorker).tab page)
      (sortOn 0 1 (filled oneWorker descendingLib) inOrder inOrder)) =
        [(0, [.load 0 (List.replicate 4096 0), .store 0 (filled oneWorker descendingLib)]),
          (1, [.load 0 (filled oneWorker descendingLib), .store 0 inOrder]),
          (0, [.load 0 inOrder]), (0, [.load 0 inOrder, .store 0 inOrder])] := by
  refine of_decide_eq_true ?_
  -- the run is the same for every instance
  obtain rfl : inst = decEqArray := Subsingleton.elim _ _
  decide +kernel

/-- The node 0 fills the array, the node 1 sorts its segment, and the node 0 merges. -/
theorem parallelSort_shared_sortOn :
    ∃ s steps, ∃ p : Program ℤ, Network.run (Dsm.System.step (fun n => [n + 1]) 0x10000)
        (initState (0 : Fin 2) fun page _ => pages (Program.init oneWorker).tab page)
        (sortOn 0 1 (filled oneWorker descendingLib) inOrder inOrder) = some s ∧
      Network.run (Program.step oneWorker descendingLib) (Program.init oneWorker) steps = some p ∧
      p.control = ⟨.check, [1]⟩ ∧
      (∀ page, (sortOn (0 : Fin 2) 1 (filled oneWorker descendingLib) inOrder inOrder).foldl
        (lastStore page) (pages (Program.init oneWorker).tab page) = pages p.tab page) ∧
      p.tab.Perm (filled oneWorker descendingLib) ∧ p.tab.Pairwise (· ≤ ·) := by
  obtain ⟨hany, hok, hsections⟩ := run_sortOn inferInstance
  obtain ⟨s, hrun, hopened⟩ := (Option.any_eq_true _ _).mp hany
  have hargs : mainArgs 4 8080 1 1 = .ok oneWorker := rfl
  obtain ⟨steps, p, hsteps, hcontrol, hpages, hperm, hsorted⟩ :=
    parallelSort_shared (by decide) hargs (by decide) (by decide) (by decide) hrun hok
      (hsections ▸ performs_sortOn) (of_decide_eq_true hopened)
  have hmain : p.main = .check := congrArg Control.main hcontrol
  exact ⟨s, steps, p, hrun, hsteps, hcontrol, hpages, hperm (by simp [hmain]),
    hsorted (Or.inl hmain)⟩

end OneWorker

end Sorting
