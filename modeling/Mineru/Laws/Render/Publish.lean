import Mineru.Laws.Render.Prepare

/-!
# Competing publishers

What a publisher makes it alone removes, and it only works below a directory of its own. So a step
changes nothing but the entries of its publisher, and where each publisher stands holds in every
run.

The state is one root and any number of publishers, each at some position of `commit`, and a step is
one operation of one of them, which may fail. `step_changed` says whose entries a step touches and
`step_inv` where it leaves each publisher. Who wins depends on the order of the steps, and the
theorem holds for all of them.

Publishers are prepared one after another before they compete. A process that is killed takes no
further step, and what it has made stays.
-/

set_option autoImplicit false

namespace Mineru.Render

open Logic

/-! ## Every run -/

/-- What holds in every state of a run. -/
structure Inv (prep : Prep) (s : State) : Prop where
  owned : s.root.Owned
  stages : ∀ (i : Nat) (pub : PreparedRender), prep.prepared[i]? = some pub →
    ∀ e, s.root.get [pub.name] = some e → e.node = .dir → e.creator = some i
  stands : ∀ (i : Nat) (pub : PreparedRender), prep.prepared[i]? = some pub →
    Stands (s.root.made (some i)) pub (s.publishers i)
  kept : s.root.made none = prep.root.made none

section Runs

variable {pid : Nat} {before : Root} {prep : Prep} {s t : State}

theorem step_some {i : Nat} {move : Move} (taken : s.step prep.prepared (i, move) = some t) :
    ∃ pub root l, prep.prepared[i]? = some pub ∧
      pub.act i s.root (s.publishers i) move = some (root, l) ∧
      t = ⟨root, Function.update s.publishers i l⟩ := by
  obtain ⟨pub, there, taken⟩ := Option.bind_eq_some_iff.mp taken
  obtain ⟨⟨root, l⟩, acted, is⟩ := Option.bind_eq_some_iff.mp taken
  cases is
  exact ⟨pub, root, l, there, acted, rfl⟩

theorem start_inv (h : Prepared pid before prep) : Inv prep (.start prep) where
  owned := h.owned
  stages i pub there e found _ := h.stages i pub there e found
  stands i pub there := by
    have clean : Clean (prep.root.made (some i)) pub := by
      intro p node made
      obtain ⟨pub', there', head⟩ := h.within i p node made
      rw [there] at there'
      cases there'
      exact head
    simp only [State.start, there, Publisher.start]
    by_cases none : pub.assets = []
    · rw [if_pos none]
      exact ⟨h.staged i pub there, .inr ⟨rfl, none, clean⟩⟩
    · rw [if_neg none]
      exact ⟨rfl, none, h.staged i pub there, clean⟩
  kept := rfl

/-- A step of a publisher touches the entries of this publisher. -/
theorem step_changed (h : Prepared pid before prep) (inv : Inv prep s) {i : Nat} {move : Move}
    (taken : s.step prep.prepared (i, move) = some t) : Root.Changed i s.root t.root := by
  obtain ⟨pub, root, l, there, acted, rfl⟩ := step_some taken
  exact (act_stands (h.ok i pub there) inv.owned (inv.stages i pub there) (inv.stands i pub there)
    acted).1

/-- Where the publishers stand: the one that takes the step has moved on, and for the others nothing
has changed. -/
theorem step_inv (h : Prepared pid before prep) (inv : Inv prep s) {i : Nat} {move : Move}
    (taken : s.step prep.prepared (i, move) = some t) : Inv prep t := by
  have changed := step_changed h inv taken
  obtain ⟨pub, root, l, there, acted, rfl⟩ := step_some taken
  obtain ⟨-, stands⟩ := act_stands (h.ok i pub there) inv.owned (inv.stages i pub there)
    (inv.stands i pub there) acted
  refine ⟨changed.owned inv.owned, ?_, ?_, (changed.others (by simp)).trans inv.kept⟩
  · intro j pub' there' e found dir
    cases changed with
    | same is => exact inv.stages j pub' there' e (is ▸ found) dir
    | made p node absent get top below =>
      have is := get [pub'.name]
      rw [is] at found
      split at found
      · rename_i name
        cases found
        -- A directory that is made at the top is `images`, which is no name of a stage.
        exact absurd (top _ name.symm dir) (h.ok j pub' there').name
      · exact inv.stages j pub' there' e found dir
    | gone p node mine leaf get =>
      have is := get [pub'.name]
      rw [is] at found
      split at found
      · cases found
      · exact inv.stages j pub' there' e found dir
  · intro j pub' there'
    by_cases same : j = i
    · subst same
      rw [there] at there'
      cases there'
      simpa using stands
    · rw [show root.made (some j) = s.root.made (some j) from changed.others (by simpa using same)]
      simpa [Function.update_of_ne same] using inv.stands j pub' there'

/-- The invariant in every reachable state of the race. -/
theorem reachable_inv (h : Prepared pid before prep) (reachable : (machine prep).Reachable s) :
    Inv prep s := by
  apply Machine.Reachable.invariant (start_inv h) _ reachable
  rintro s ⟨i, move⟩ t reply - inv taken
  obtain ⟨t', stepped, is⟩ := Option.map_eq_some_iff.mp taken
  cases is
  exact step_inv h inv stepped

/-- The target is the main file, and `images` has the sidecars and nothing else. -/
structure Root.Has (r : Root) (pub : PreparedRender) (i : Nat) : Prop where
  target : r.get [pub.target] = some ⟨some i, .file pub.main⟩
  images : pub.sidecars ≠ [] → r.get [imagesName] = some ⟨some i, .dir⟩
  sidecars : ∀ s ∈ pub.sidecars, r.get s.1 = some ⟨some i, .file s.2⟩
  only : pub.sidecars ≠ [] → ∀ p e, p.head? = some imagesName → r.get p = some e →
    (∃ s ∈ pub.sidecars, p = s.1 ∧ e.node = .file s.2) ∨ (e.node = .dir ∧ pub.Above p)

/-- What is published is in the root under the name of its publisher. -/
theorem Published.has {r : Root} {pub : PreparedRender} {i : Nat} (ok : pub.Ok) (owned : r.Owned)
    (h : Published (r.made (some i)) pub) : r.Has pub i where
  target := Root.made_some.mp h.target
  images some := Root.made_some.mp (h.images some)
  sidecars s mem := Root.made_some.mp (h.sidecars s mem)
  only some p e head found := by
    have images := Root.made_some.mp (h.images some)
    obtain ⟨n, q, rfl⟩ := List.exists_cons_of_ne_nil (show p ≠ [] by rintro rfl; cases head)
    cases head
    have own : e.creator = .some i := owned.of_top found images
    have mine : r.made (.some i) (imagesName :: q) = .some e.node :=
      Root.made_some.mpr (by rw [found, ← own])
    rcases h.only _ _ mine with stage | target | ⟨-, inside⟩
    · exact absurd (Option.some.inj stage).symm ok.name
    · exact absurd (List.cons.inj target).1.symm ok.target
    · exact inside

/-- Publishers on one root, with any steps in any order: what was there before stays; a publisher
whose commit returned `Ok` has its target and its `images`; one that is done with an error, and whose
removals worked, has left nothing outside of its stage; and a step of a publisher changes and removes
no entry but its own. -/
theorem competing_publishers (pid stageId : Nat) (before : Root) (requests : List Request)
    (s : State)
    (reachable : (machine (prepareAll pid stageId before requests)).Reachable s) :
    (∀ p e, before.get p = some e → s.root.get p = some ⟨none, e.node⟩) ∧
      (∀ (i : Nat) (pub : PreparedRender),
        (prepareAll pid stageId before requests).prepared[i]? = some pub →
        ((s.publishers i).returned = some true → s.root.Has pub i) ∧
        ((s.publishers i).ctl = .done false → (s.publishers i).removalFailed = false →
          ∀ p e, s.root.get p = some e → e.creator = some i → p.head? = some pub.name)) ∧
      ∀ i move t, s.step (prepareAll pid stageId before requests).prepared (i, move) = some t →
        ∀ p e, s.root.get p = some e → t.root.get p ≠ some e → e.creator = some i := by
  have prepared := prepareAll_prepared pid stageId before requests
  have inv := reachable_inv prepared reachable
  refine ⟨?_, ?_, ?_⟩
  · intro p e found
    rw [← Root.made_some, inv.kept, prepared.kept, Root.made_some, before_get, found]
    rfl
  · intro i pub there
    have stands := inv.stands i pub there
    unfold Stands at stands
    constructor
    · intro returned
      have published : Published (s.root.made (some i)) pub := by
        unfold Publisher.returned at returned
        split at returned
        · cases returned
        · rename_i ok ctl
          cases returned
          simpa only [ctl, if_true] using stands
        · rename_i ok ctl
          cases returned
          simpa only [ctl, if_true] using stands
        · cases returned
      exact published.has (prepared.ok i pub there) inv.owned
    · intro done removed p e found own
      simp only [done] at stands
      have clean : Clean (s.root.made (some i)) pub := stands removed
      exact clean p e.node (Root.made_some.mpr (by rw [found, ← own]))
  · intro i move t taken p e found changed
    by_contra other
    have same := congrFun ((step_changed prepared inv taken).others other) p
    rw [Root.made_some.mpr (show s.root.get p = some ⟨e.creator, e.node⟩ from found)] at same
    exact changed (Root.made_some.mp same)

end Runs

/-- An empty tree. -/
def vacant : Root := ⟨∅, fun _ there => absurd rfl there⟩

/-- Two renders with one target and an image each. -/
def rivals : List Request :=
  [⟨some (text "a.md"), [1], [(text "images/z", [2])]⟩,
    ⟨some (text "a.md"), [3], [(text "images/z", [4])]⟩]

/-- The removal of a stage with one image, entry by entry. -/
def stageRemoval (i : Nat) : List (Nat × Move) :=
  let name := stageName 7 i
  [(i, .unlink [name, imagesName, ['z']]), (i, .unlink [name, imagesName]),
    (i, .unlink [name, renderedName]), (i, .unlink [name])]

/-- The first one is published, and the second one finds its `images` there. -/
def rivalsRun : List (Nat × Move) :=
  [(0, .go), (0, .go), (1, .fail), (0, .go), (0, .go)] ++ stageRemoval 1 ++ stageRemoval 0

theorem rivals_run :
    ((machine (prepareAll 7 0 vacant rivals)).play (.start (prepareAll 7 0 vacant rivals))
      rivalsRun).map (fun s => ((s.publishers 0).returned, s.publishers 1)) =
        some (some true, ⟨.done false, false, false⟩) := by
  decide +kernel

/-- Two publishers of one target: the first one publishes, and the second leaves nothing outside of
its stage. -/
theorem rivals_compete :
    ∃ s, (machine (prepareAll 7 0 vacant rivals)).Reachable s ∧
      s.root.Has ⟨text "a.md", stageName 7 0, [1], [([imagesName, ['z']], [2])]⟩ 0 ∧
      ∀ p e, s.root.get p = some e → e.creator = some 1 → p.head? = some (stageName 7 1) := by
  obtain ⟨s, played, is⟩ := Option.map_eq_some_iff.mp rivals_run
  have reachable := Machine.Reachable.start.play played
  obtain ⟨-, each, -⟩ := competing_publishers 7 0 vacant rivals s reachable
  obtain ⟨returned, second⟩ := Prod.mk.inj is
  refine ⟨s, reachable, (each 0 _ (by decide +kernel)).1 returned, ?_⟩
  exact (each 1 ⟨text "a.md", stageName 7 1, [3], [([imagesName, ['z']], [4])]⟩
    (by decide +kernel)).2 (by rw [second]) (by rw [second])

end Mineru.Render
