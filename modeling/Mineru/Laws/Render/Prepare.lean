import Mineru.Laws.Render.Commit

/-!
# Preparing a render

A prepared render has its stage under a name of its own, with the main file and every sidecar, and
has made nothing else.

`Prepared` is the invariant of several preparations, one after another (`prepareAll_prepared`). Each
one that succeeds adds a stage under a new name, and one that is refused or fails leaves the others
as they were.

What is published is untouched by all of this. It is the commits that change it.
-/

set_option autoImplicit false

namespace Mineru.Render

open Logic

/-! ## Preparing -/

section Preparing

variable {r r' before : Root} {i pid : Nat} {name : Name} {p : Path}

/-- Only the tree at a name differs, and everything there has one creator. -/
structure Private (i : Nat) (name : Name) (before r : Root) : Prop where
  outside : ∀ q, q.head? ≠ some name → r.get q = before.get q
  mine : ∀ q e, q.head? = some name → r.get q = some e → e.creator = some i

theorem Private.put {node : Node} (h : Private i name before r) (head : p.head? = some name)
    (get : ∀ q, r'.get q = if q = p then some ⟨some i, node⟩ else r.get q) :
    Private i name before r' where
  outside q other := by
    rw [get, if_neg, h.outside q other]
    rintro rfl
    exact other head
  mine q e below found := by
    rw [get] at found
    split at found
    · cases found
      rfl
    · exact h.mine q e below found

theorem Private.refl (absent : r.get [name] = none) : Private i name r r where
  outside _ _ := rfl
  mine q e below found := by
    obtain ⟨n, q, rfl⟩ := List.exists_cons_of_ne_nil (show q ≠ [] by rintro rfl; cases below)
    cases below
    by_cases nil : q = []
    · rw [nil, absent] at found
      cases found
    · obtain ⟨t, top, -⟩ := r.top (by rw [found]; simp) nil
      rw [absent] at top
      cases top

/-- The files that are not at a path stay. -/
def FilesStay (r r' : Root) (dst : Path → Prop) : Prop :=
  ∀ q c b, r.get q = some ⟨c, .file b⟩ → ¬ dst q → r'.get q = some ⟨c, .file b⟩

theorem writeStaged_spec {path dir : Path} {bytes : Bytes} (h : Private i name before r)
    (head : dir.head? = some name) (run : writeStaged r i dir path bytes = some r') :
    Private i name before r' ∧ FilesStay r r' (· = dir ++ path) ∧
      (path ≠ [] → r'.get (dir ++ path) = some ⟨some i, .file bytes⟩) := by
  induction path generalizing r dir with
  | nil =>
    cases run
    exact ⟨h, fun q c b found _ => found, fun nil => absurd rfl nil⟩
  | cons part rest ih =>
    have below : ∀ q, (dir ++ part :: q).head? = some name := by
      intro q
      cases dir with
      | nil => cases head
      | cons n front => exact head
    cases rest with
    | nil =>
      obtain ⟨-, get⟩ := Root.writeFile_some run
      refine ⟨h.put (below []) get, ?_, fun _ => by rw [get, if_pos rfl]⟩
      intro q c b found other
      rw [get, if_neg other]
      exact found
    | cons next more =>
      unfold writeStaged at run
      obtain ⟨r₁, made, run⟩ := Option.bind_eq_some_iff.mp run
      have step : Private i name before r₁ ∧ FilesStay r r₁ fun _ => False := by
        unfold Root.ensureDir at made
        split at made
        · obtain ⟨-, absent, get⟩ := Root.createDir_some made
          refine ⟨h.put (below []) get, fun q c b found _ => ?_⟩
          rw [get, if_neg, found]
          rintro rfl
          rw [absent] at found
          cases found
        · cases made
          exact ⟨h, fun q c b found _ => found⟩
      split at run
      · obtain ⟨kept, files, there⟩ := ih step.1 (below []) run
        rw [List.append_assoc, List.singleton_append] at files there
        exact ⟨kept, fun q c b found other => files q c b (step.2 q c b found id) other,
          fun _ => there (by simp)⟩
      · cases run

theorem writeAll_spec {assets : List (Path × Bytes)} (h : Private i name before r)
    (some_ : ∀ s ∈ assets, s.1 ≠ [])
    (run : assets.foldlM (fun root (path, bytes) => writeStaged root i [name] path bytes) r =
      some r') :
    Private i name before r' ∧ FilesStay r r' (fun q => ∃ s ∈ assets, q = name :: s.1) ∧
      ((assets.map Prod.fst).Nodup → ∀ s ∈ assets,
        r'.get (name :: s.1) = some ⟨some i, .file s.2⟩) := by
  induction assets generalizing r with
  | nil =>
    cases run
    exact ⟨h, fun q c b found _ => found, fun _ s mem => by cases mem⟩
  | cons asset rest ih =>
    obtain ⟨path, bytes⟩ := asset
    rw [List.foldlM_cons] at run
    obtain ⟨r₁, first, run⟩ := Option.bind_eq_some_iff.mp run
    obtain ⟨h₁, files₁, there₁⟩ := writeStaged_spec h rfl first
    obtain ⟨h₂, files₂, there₂⟩ := ih h₁ (fun s mem => some_ s (List.mem_cons_of_mem _ mem)) run
    refine ⟨h₂, ?_, ?_⟩
    · intro q c b found other
      exact files₂ q c b (files₁ q c b found fun is => other ⟨_, List.mem_cons_self, is⟩)
        fun ⟨s, mem, is⟩ => other ⟨s, List.mem_cons_of_mem _ mem, is⟩
    · intro nodup s mem
      obtain ⟨fresh, nodup⟩ := List.nodup_cons.mp nodup
      rcases List.mem_cons.mp mem with rfl | later
      · refine files₂ _ _ _ (there₁ (some_ _ List.mem_cons_self)) ?_
        rintro ⟨s, mem, is⟩
        exact fresh (List.mem_map.mpr ⟨s, mem, (List.cons.inj is).2.symm⟩)
      · exact there₂ nodup s later

/-- The paths of accepted sidecars. -/
def Accepted (assets : List (Path × Bytes)) : Prop :=
  ∀ s ∈ assets, ∃ n q, s.1 = imagesName :: n :: q

theorem stageRender_spec {main : Bytes} {assets : List (Path × Bytes)} (accepted : Accepted assets)
    (run : stageRender r i name main assets = some r') :
    r.get [name] = none ∧ Private i name r r' ∧
      r'.get [name, renderedName] = some ⟨some i, .file main⟩ ∧
      ((assets.map Prod.fst).Nodup → ∀ s ∈ assets,
        r'.get (name :: s.1) = some ⟨some i, .file s.2⟩) := by
  obtain ⟨r₁, created, run⟩ := Option.bind_eq_some_iff.mp run
  obtain ⟨r₂, written, run⟩ := Option.bind_eq_some_iff.mp run
  obtain ⟨-, absent, get₁⟩ := Root.createDir_some created
  obtain ⟨-, get₂⟩ := Root.writeFile_some written
  have h₂ := ((Private.refl absent).put rfl get₁).put rfl get₂
  obtain ⟨h₃, files, there⟩ := writeAll_spec h₂ (fun s mem nil => by
    obtain ⟨n, q, is⟩ := accepted s mem
    rw [nil] at is
    cases is) run
  refine ⟨absent, h₃, ?_, there⟩
  refine files _ _ _ (by rw [get₂, if_pos rfl]) ?_
  rintro ⟨s, mem, is⟩
  obtain ⟨n, q, long⟩ := accepted s mem
  rw [long] at is
  cases is

theorem mapM_all {α β : Type} {f : α → Except String β} {P : β → Prop}
    (each : ∀ a b, f a = .ok b → P b) {as : List α} {bs : List β} (run : as.mapM f = .ok bs) :
    ∀ b ∈ bs, P b := by
  induction as generalizing bs with
  | nil =>
    cases run
    intro b mem
    cases mem
  | cons a as ih =>
    rw [List.mapM_cons] at run
    cases first : f a with
    | error e =>
      rw [first] at run
      cases run
    | ok b =>
      rw [first] at run
      cases rest : as.mapM f with
      | error e =>
        simp only [rest] at run
        cases run
      | ok bs' =>
        simp only [rest] at run
        cases run
        intro b' mem
        rcases List.mem_cons.mp mem with rfl | later
        · exact each a _ first
        · exact ih rest b' later

theorem checkSidecar_ok {paths : List (List Component)} {key : Text} {rel : Path}
    (h : checkSidecar paths key = .ok rel) : ∃ n q, rel = imagesName :: n :: q := by
  unfold checkSidecar at h
  split at h
  · cases h
  · rename_i found
    split at h
    · cases h
    · cases h
      obtain ⟨-, shape⟩ := Option.filter_eq_some_iff.mp found
      obtain ⟨long, head⟩ := of_decide_eq_true shape
      obtain ⟨first, rest, rfl⟩ := List.exists_cons_of_length_pos (by omega : 0 < rel.length)
      cases head
      obtain ⟨n, q, rfl⟩ := List.exists_cons_of_length_pos (by simp at long; omega : 0 < rest.length)
      exact ⟨n, q, rfl⟩

theorem accept_ok {request : Request} {target : Name} {assets : List (Path × Bytes)}
    (h : accept r request = .ok (target, assets)) : target ≠ imagesName ∧ Accepted assets := by
  unfold accept at h
  simp only [bind, Except.bind, throw, throwThe, MonadExceptOf.throw, pure, Except.pure] at h
  split at h
  · split at h
    · cases h
    · rename_i found accepted
      have paths : Accepted found := by
        refine mapM_all (fun sidecar asset checked => ?_) accepted
        cases check : checkSidecar (request.sidecars.map Prod.fst |>.map components) sidecar.1 with
        | error e =>
          rw [check] at checked
          cases checked
        | ok rel =>
          rw [check] at checked
          cases checked
          exact checkSidecar_ok check
      split at h
      · cases h
      · rename_i other
        split at h
        · cases h
        · split at h
          · split at h
            · cases h
            · cases h
              exact ⟨other, paths⟩
          · cases h
            exact ⟨other, paths⟩
  · cases h

theorem stageName_inj {id id' : Nat} (h : stageName pid id = stageName pid id') : id = id' := by
  unfold stageName at h
  generalize text ".mineru-render-" ++ text (toString pid) = front at h
  have digits : (Nat.repr id).toList = (Nat.repr id').toList :=
    (List.cons.inj (List.append_cancel_left h)).2
  exact Nat.repr_inj.mp (String.toList_injective digits)

theorem stageName_ne_images (pid id : Nat) : stageName pid id ≠ imagesName := by
  intro same
  have dot : (text ".mineru-render-").head? = some '.' := by decide
  have first : (stageName pid id).head? = some '.' := by
    unfold stageName
    rw [List.append_assoc, List.head?_append, dot, Option.some_or]
  have images : imagesName.head? = some 'i' := by decide
  rw [same, images] at first
  cases first

end Preparing

/-- The renders that are prepared have their stages, and nothing else was made. -/
structure Prepared (pid : Nat) (before : Root) (s : Prep) : Prop where
  names : ∀ (i : Nat) (pub : PreparedRender), s.prepared[i]? = some pub →
    ∃ id < s.stageId, pub.name = stageName pid id
  ok : ∀ (i : Nat) (pub : PreparedRender), s.prepared[i]? = some pub → pub.Ok
  staged : ∀ (i : Nat) (pub : PreparedRender), s.prepared[i]? = some pub →
    Staged (s.root.made (some i)) pub
  within : ∀ i p node, s.root.made (some i) p = some node →
    ∃ pub, s.prepared[i]? = some pub ∧ p.head? = some pub.name
  stages : ∀ (i : Nat) (pub : PreparedRender), s.prepared[i]? = some pub →
    ∀ e, s.root.get [pub.name] = some e → e.creator = some i
  owned : s.root.Owned
  kept : s.root.made none = before.made none

section Prepares

variable {before : Root} {pid : Nat} {s : Prep}

theorem getElem?_snoc {pubs : List PreparedRender} {pub pub' : PreparedRender} {i : Nat}
    (h : (pubs ++ [pub])[i]? = some pub') :
    pubs[i]? = some pub' ∨ (i = pubs.length ∧ pub' = pub) := by
  rw [List.getElem?_append] at h
  split at h
  · exact .inl h
  · rename_i past
    obtain ⟨inside, is⟩ := List.getElem?_eq_some_iff.mp h
    rw [List.length_singleton] at inside
    exact .inr ⟨by omega, by simpa using is.symm⟩

theorem Prepared.later (h : Prepared pid before s) (id : Nat) (later : s.stageId ≤ id) :
    Prepared pid before { s with stageId := id } where
  names i pub there := by
    obtain ⟨id', small, is⟩ := h.names i pub there
    exact ⟨id', Nat.lt_of_lt_of_le small later, is⟩
  ok := h.ok
  staged := h.staged
  within := h.within
  stages := h.stages
  owned := h.owned
  kept := h.kept

/-- One more stage, under a new name. -/
theorem Prepared.snoc {root : Root} (h : Prepared pid before s) (pub : PreparedRender)
    (ok : pub.Ok) (name : pub.name = stageName pid s.stageId)
    (absent : s.root.get [pub.name] = none)
    (stage : Private s.prepared.length pub.name s.root root)
    (staged : Staged (root.made (some s.prepared.length)) pub) :
    Prepared pid before ⟨root, s.stageId + 1, s.prepared ++ [pub]⟩ := by
  have inside : ∀ {i : Nat} {pub' : PreparedRender}, s.prepared[i]? = some pub' →
      i ≠ s.prepared.length := by
    intro i pub' there same
    have small := (List.getElem?_eq_some_iff.mp there).1
    omega
  have ne : ∀ {i : Nat} {pub' : PreparedRender}, s.prepared[i]? = some pub' →
      pub'.name ≠ pub.name := by
    intro i pub' there same
    obtain ⟨id, small, is⟩ := h.names i pub' there
    rw [is, name] at same
    exact absurd (stageName_inj same) (Nat.ne_of_lt small)
  have others : ∀ c, c ≠ some s.prepared.length → root.made c = s.root.made c := by
    intro c other
    funext q
    by_cases below : q.head? = some pub.name
    · have none : s.root.get q = none := by
        cases found : s.root.get q with
        | none => rfl
        | some e =>
          obtain ⟨n, rest, rfl⟩ := List.exists_cons_of_ne_nil
            (show q ≠ [] by rintro rfl; cases below)
          cases below
          by_cases nil : rest = []
          · rw [nil, absent] at found
            cases found
          · obtain ⟨t, top, -⟩ := s.root.top (by rw [found]; simp) nil
            rw [absent] at top
            cases top
      rw [Root.made_absent none]
      unfold Root.made
      cases found : root.get q with
      | none => rfl
      | some e => simp [Option.filter, stage.mine q e below found, Ne.symm other]
    · unfold Root.made
      rw [stage.outside q below]
  refine ⟨?_, ?_, ?_, ?_, ?_, ?_, ?_⟩
  · intro i pub' there
    rcases getElem?_snoc there with before_ | ⟨-, rfl⟩
    · obtain ⟨id, small, is⟩ := h.names i pub' before_
      exact ⟨id, Nat.lt_succ_of_lt small, is⟩
    · exact ⟨_, Nat.lt_succ_self _, name⟩
  · intro i pub' there
    rcases getElem?_snoc there with before_ | ⟨-, rfl⟩
    · exact h.ok i pub' before_
    · exact ok
  · intro i pub' there
    rcases getElem?_snoc there with before_ | ⟨rfl, rfl⟩
    · rw [others _ (by simpa using inside before_)]
      exact h.staged i pub' before_
    · exact staged
  · intro i p node made
    by_cases last : i = s.prepared.length
    · subst last
      refine ⟨pub, by simp, ?_⟩
      by_contra outside
      have old := stage.outside p outside
      have found := Root.made_some.mp made
      rw [show root.get p = s.root.get p from old] at found
      obtain ⟨pub', there, -⟩ := h.within _ p node (Root.made_some.mpr found)
      exact inside there rfl
    · rw [others _ (by simpa using last)] at made
      obtain ⟨pub', there, head⟩ := h.within i p node made
      have small := (List.getElem?_eq_some_iff.mp there).1
      exact ⟨pub', by rw [List.getElem?_append_left small]; exact there, head⟩
  · intro i pub' there e found
    rcases getElem?_snoc there with before_ | ⟨rfl, rfl⟩
    · have old := stage.outside [pub'.name] (fun same => ne before_ (Option.some.inj same))
      exact h.stages i pub' before_ e (old ▸ found)
    · exact stage.mine _ e rfl found
  · intro n q e t found top
    by_cases is : n = pub.name
    · rw [is] at found top
      exact (stage.mine _ e rfl found).trans (stage.mine _ t rfl top).symm
    · have other : ∀ rest : Path, (n :: rest).head? ≠ some pub.name := fun _ same =>
        is (Option.some.inj same)
      have found' : s.root.get (n :: q) = some e := stage.outside _ (other q) ▸ found
      have top' : s.root.get [n] = some t := stage.outside _ (other []) ▸ top
      exact h.owned n q e t found' top'
  · exact (others none (by simp)).trans h.kept

theorem prepareRender_prepared (h : Prepared pid before s) (request : Request) :
    Prepared pid before (prepareRender pid s request) := by
  unfold prepareRender
  split
  · exact h
  · rename_i target sidecars accepted
    obtain ⟨notImages, paths⟩ := accept_ok accepted
    dsimp only
    split
    · exact h.later _ (Nat.le_succ _)
    · rename_i root staged
      obtain ⟨absent, stage, main, files⟩ := stageRender_spec paths staged
      have assets : ∀ a ∈ sidecars.map Prod.fst, ∃ n q, a = imagesName :: n :: q := by
        intro a mem
        obtain ⟨asset, inside, rfl⟩ := List.mem_map.mp mem
        exact paths asset inside
      exact h.snoc ⟨target, stageName pid s.stageId, request.main, sidecars⟩
        ⟨notImages, stageName_ne_images _ _, assets⟩ rfl absent stage
        ⟨Root.made_some.mpr main, fun nodup asset mem => Root.made_some.mpr (files nodup asset mem)⟩

theorem before_get (r : Root) (p : Path) :
    r.before.get p = (r.get p).map fun e => ⟨none, e.node⟩ := Table.get_map _ _ _

theorem prepareAll_prepared (pid stageId : Nat) (before : Root) (requests : List Request) :
    Prepared pid before.before (prepareAll pid stageId before requests) := by
  have start : Prepared pid before.before ⟨before.before, stageId, []⟩ := by
    have old : ∀ p e, before.before.get p = some e → e.creator = none := by
      intro p e found
      rw [before_get] at found
      obtain ⟨e', -, rfl⟩ := Option.map_eq_some_iff.mp found
      rfl
    refine ⟨fun i pub there => (by simp at there), fun i pub there => (by simp at there),
      fun i pub there => (by simp at there), ?_, fun i pub there => (by simp at there), ?_, rfl⟩
    · intro i p node made
      have creator := old p _ (Root.made_some.mp made)
      cases creator
    · intro n q e t found top
      rw [old _ e found, old _ t top]
  unfold prepareAll
  generalize (⟨before.before, stageId, []⟩ : Prep) = s at start
  induction requests generalizing s with
  | nil => exact start
  | cons request rest ih => exact ih _ (prepareRender_prepared start request)

end Prepares

end Mineru.Render
