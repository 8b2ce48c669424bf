import Psar.DataTransfer.Pages
import Psar.Library.Proofs.NetworkProofs

/-!
# Proofs: the transfer of all pages

What every action and every handler does to the fields that the transfer depends on.
-/

namespace PageTransfer

variable {Node Page C : Type} [DecidableEq Page]

/-! ## Entries -/

/-- A property of the entries of all pages that the new entry has. -/
theorem forall_update {Q : Page → Entry Node C → Prop} {f : Page → Entry Node C}
    (h : ∀ q, Q q (f q)) {q : Page} {e : Entry Node C} (he : Q q e) :
    ∀ q', Q q' (Function.update f q e q') := by
  intro q'
  by_cases hq : q' = q
  · subst hq
    rw [Function.update_self]
    exact he
  · rw [Function.update_of_ne hq]
    exact h q'

theorem updatePage_owner (e : Entry Node C) (owner : Node) (page : C) :
    (e.updatePage owner page).owner = owner := by
  unfold Entry.updatePage
  dsimp only
  split <;> rfl

theorem updatePage_content (e : Entry Node C) (owner : Node) (page : C) :
    (e.updatePage owner page).content = page := by
  unfold Entry.updatePage
  dsimp only
  split <;> rfl

theorem updatePage_predicate (e : Entry Node C) (owner : Node) (page : C) :
    (e.updatePage owner page).predicate = true := by
  unfold Entry.updatePage
  dsimp only
  split
  · assumption
  · rfl

/-- `update_page` of `Psar.DataTransfer.Page` does the same to its page. -/
theorem ofPeer_updatePage (p : DataTransfer.Peer Node C) (owner : Node) (page : C) :
    ofPeer (DataTransfer.updatePage p owner page) = (ofPeer p).updatePage owner page := by
  obtain ⟨owner', state, predicate, content, prot, mode, thread⟩ := p
  cases predicate <;> rfl

/-! ## Actions that the transfer does not depend on -/

/-- The node has the same part in the transfer. -/
structure SameTransfer (p p' : Peer Node Page C) : Prop where
  owner : ∀ q, (p'.entry q).owner = (p.entry q).owner
  predicate : ∀ q, (p'.entry q).predicate = (p.entry q).predicate
  asks : p'.asks = p.asks
  hands : p'.hands = p.hands
  dtCv : p'.dtCv = p.dtCv
  recvOn : p'.recvOn = p.recvOn
  askOn : p'.askOn = p.askOn
  nodeList : p'.nodeList = p.nodeList
  leave : p'.leave = p.leave

/-- A change of an entry that keeps the owner and the predicate. -/
theorem sameTransfer_setEntry (p : Peer Node Page C) (q : Page) {e : Entry Node C}
    (ho : e.owner = (p.entry q).owner) (hp : e.predicate = (p.entry q).predicate) :
    SameTransfer p (p.setEntry q e) := by
  refine ⟨?_, ?_, rfl, rfl, rfl, rfl, rfl, rfl, rfl⟩
  · exact forall_update (Q := fun q e => e.owner = (p.entry q).owner) (fun _ => rfl) ho
  · exact forall_update (Q := fun q e => e.predicate = (p.entry q).predicate) (fun _ => rfl) hp

/-- The actions of the critical section and of a page fault that has its page. -/
def Action.isLocal : Action Node Page C → Bool
  | .lock _ _ => true
  | .grant _ => true
  | .unlock _ => true
  | .write _ _ => true
  | .wake _ _ => true
  | .protect _ _ => true
  | _ => false

/-- A change of an entry that keeps the content. -/
theorem content_setEntry (p : Peer Node Page C) (q : Page) {e : Entry Node C}
    (hc : e.content = (p.entry q).content) :
    ∀ q', ((p.setEntry q e).entry q').content = (p.entry q').content :=
  forall_update (Q := fun q e => e.content = (p.entry q).content) (fun _ => rfl) hc

/-- A local action sends nothing, and only a write changes a content. -/
theorem act_local [DecidableEq Node] [DecidableEq C] {pages : List Page} {me : Node}
    {p : Peer Node Page C} {a : Action Node Page C} (ha : a.isLocal = true)
    {r : Peer Node Page C × List (Msg Node Page C)}
    (h : act pages me p a = some r) : r.2 = [] ∧ SameTransfer p r.1 ∧
      ((∀ q page, a ≠ .write q page) → ∀ q, (r.1.entry q).content = (p.entry q).content) := by
  have hsame : SameTransfer p p := ⟨fun _ => rfl, fun _ => rfl, rfl, rfl, rfl, rfl, rfl, rfl, rfl⟩
  cases a with
  | lock q k =>
    cases h
    exact ⟨rfl, sameTransfer_setEntry p q rfl rfl, fun _ => content_setEntry p q rfl⟩
  | grant q =>
    obtain ⟨p', hp', rfl⟩ := Option.map_eq_some_iff.mp h
    simp only [grant] at hp'
    split at hp'
    · cases hp'
      exact ⟨rfl, sameTransfer_setEntry p q rfl rfl, fun _ => content_setEntry p q rfl⟩
    · cases hp'
  | unlock q =>
    obtain ⟨p', hp', rfl⟩ := Option.map_eq_some_iff.mp h
    simp only [unlock] at hp'
    split at hp'
    · cases hp'
      exact ⟨rfl, sameTransfer_setEntry p q rfl rfl, fun _ => content_setEntry p q rfl⟩
    · cases hp'
  | write q page =>
    obtain ⟨p', hp', rfl⟩ := Option.map_eq_some_iff.mp h
    simp only [write] at hp'
    split at hp'
    · cases hp'
      exact ⟨rfl, sameTransfer_setEntry p q rfl rfl, fun hw => absurd rfl (hw q page)⟩
    · cases hp'
  | wake q writing =>
    obtain ⟨p', hp', rfl⟩ := Option.map_eq_some_iff.mp h
    simp only [wake] at hp'
    split at hp'
    · cases hp'
      exact ⟨rfl, { hsame with }, fun _ _ => rfl⟩
    · cases hp'
  | protect q writing =>
    obtain ⟨p', hp', rfl⟩ := Option.map_eq_some_iff.mp h
    simp only [protect] at hp'
    split at hp'
    · split at hp'
      · cases hp'
        exact ⟨rfl, { sameTransfer_setEntry p q (e := { p.entry q with prot := .readWrite })
          rfl rfl with }, fun _ => content_setEntry p q rfl⟩
      · cases hp'
        exact ⟨rfl, { sameTransfer_setEntry p q (e := { p.entry q with prot := .read })
          rfl rfl with }, fun _ => content_setEntry p q rfl⟩
    · cases hp'
  | _ => cases ha

end PageTransfer
