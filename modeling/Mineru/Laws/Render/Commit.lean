import Mineru.Laws.Render.Root

/-!
# The steps of a commit

What is said of a publisher is said of its own entries: the steps of the others leave it alone, and
its own ones lead from one stage of `commit` to the next one (`Stands`).

`Stands` has a case for each position of `commit`: before the images are linked, while they are,
when the target is published, and while what was made is dropped again. The lemmas go through these
in order (`nextAsset_stands`, `go_stands`, `error_stands`, `unlink_stands`), each for the
publisher's own view of the root, in which only its own entries are listed.

A fault may come at every operation. When a removal fails (`removalFailed`), nothing is said of what
a publisher that has not published leaves behind.
-/

set_option autoImplicit false

namespace Mineru.Render

open Logic

/-! ## Where a publisher stands -/

/-- What `prepare_render` checks of a publisher. -/
structure PreparedRender.Ok (pub : PreparedRender) : Prop where
  target : pub.target ≠ imagesName
  name : pub.name ≠ imagesName
  assets : ∀ a ∈ pub.assets, ∃ n q, a = imagesName :: n :: q

/-- A directory that a sidecar needs. -/
def PreparedRender.Above (pub : PreparedRender) (p : Path) : Prop :=
  ∃ a ∈ pub.assets, p <+: a ∧ p ≠ a

section Standing

-- The entries of one publisher.
variable (m : Path → Option Node) (pub : PreparedRender)

/-- The stage is complete. -/
structure Staged : Prop where
  main : m [pub.name, renderedName] = some (.file pub.main)
  sidecars : pub.assets.Nodup → ∀ s ∈ pub.sidecars, m (pub.name :: s.1) = some (.file s.2)

/-- Nothing is outside of the stage. -/
def Clean : Prop := ∀ p node, m p = some node → p.head? = some pub.name

/-- Some sidecars are linked, and nothing else is outside of the stage. -/
structure Linked (linked : List Path) : Prop where
  images : m [imagesName] = some .dir
  nodup : linked.Nodup
  bytes : ∀ a ∈ linked, ∃ b, m a = some (.file b) ∧ m (pub.name :: a) = some (.file b)
  only : ∀ p node, m p = some node → p.head? = some pub.name ∨
    (p.head? = some imagesName ∧ (p ∈ linked ∨ (node = .dir ∧ pub.Above p)))

/-- The target is the main file, `images` has the sidecars and nothing else, and nothing else is
outside of the stage. -/
structure Published : Prop where
  target : m [pub.target] = some (.file pub.main)
  images : pub.sidecars ≠ [] → m [imagesName] = some .dir
  sidecars : ∀ s ∈ pub.sidecars, m s.1 = some (.file s.2)
  only : ∀ p node, m p = some node → p.head? = some pub.name ∨ p = [pub.target] ∨
    (p.head? = some imagesName ∧
      ((∃ s ∈ pub.sidecars, p = s.1 ∧ node = .file s.2) ∨ (node = .dir ∧ pub.Above p)))

/-- What is outside of the stage is below the own `images`. -/
structure Dropping : Prop where
  images : m [imagesName] = some .dir
  only : ∀ p node, m p = some node → p.head? = some pub.name ∨ p.head? = some imagesName

/-- The assets before the cursor are linked, and it is somewhere on its path. -/
structure At (c : Cursor) : Prop where
  linked : ∃ linked, Linked m pub linked ∧ pub.assets = linked ++ c.path :: c.rest
  path : c.path = c.parent ++ c.part :: c.parts
  parent : c.parent.head? = some imagesName

/-- What holds of the entries of a publisher before each operation. -/
def Stands (l : Publisher) : Prop :=
  match l.ctl with
  | .createImages => l.ownsImages = false ∧ pub.assets ≠ [] ∧ Staged m pub ∧ Clean m pub
  | .openImages => l.ownsImages = true ∧ Staged m pub ∧ Linked m pub []
  | .part c => l.ownsImages = true ∧ Staged m pub ∧ At m pub c
  | .createPart c => l.ownsImages = true ∧ Staged m pub ∧ At m pub c ∧ c.parts ≠ []
  | .openPart c => l.ownsImages = true ∧ Staged m pub ∧ At m pub c ∧ c.parts ≠ []
  | .linkTarget => Staged m pub ∧ ((l.ownsImages = true ∧ Linked m pub pub.assets) ∨
      (l.ownsImages = false ∧ pub.assets = [] ∧ Clean m pub))
  | .removeStage => Published m pub
  | .dropImages => Dropping m pub
  | .dropStage ok => if ok then Published m pub else l.removalFailed = false → Clean m pub
  | .done ok => if ok then Published m pub else l.removalFailed = false → Clean m pub

end Standing

section Puts

variable {m m' : Path → Option Node} {pub : PreparedRender} {p : Path} {node : Node}
  {linked : List Path}

/-- A new entry. -/
structure Put (m m' : Path → Option Node) (p : Path) (node : Node) : Prop where
  absent : m p = none
  get : ∀ q, m' q = if q = p then some node else m q

/-- A node is put at a free path, and everything else stays (`Put.keeps`). -/
theorem Put.there (put : Put m m' p node) : m' p = some node := by rw [put.get, if_pos rfl]

theorem Put.keeps (put : Put m m' p node) {q : Path} {node' : Node} (h : m q = some node') :
    m' q = some node' := by
  rw [put.get, if_neg, h]
  rintro rfl
  rw [put.absent] at h
  cases h

theorem Put.from_ (put : Put m m' p node) {q : Path} {node' : Node} (h : m' q = some node') :
    (q = p ∧ node' = node) ∨ m q = some node' := by
  rw [put.get] at h
  split at h
  · rename_i is
    cases h
    exact .inl ⟨is, rfl⟩
  · exact .inr h

theorem Staged.put (h : Staged m pub) (put : Put m m' p node) : Staged m' pub :=
  ⟨put.keeps h.main, fun nodup s mem => put.keeps (h.sidecars nodup s mem)⟩

theorem Linked.put_dir (h : Linked m pub linked) (put : Put m m' p .dir)
    (head : p.head? = some imagesName) (above : pub.Above p) : Linked m' pub linked where
  images := put.keeps h.images
  nodup := h.nodup
  bytes a mem := by
    obtain ⟨b, there, staged⟩ := h.bytes a mem
    exact ⟨b, put.keeps there, put.keeps staged⟩
  only q node' found := by
    rcases put.from_ found with ⟨rfl, rfl⟩ | before
    · exact .inr ⟨head, .inr ⟨rfl, above⟩⟩
    · exact h.only q node' before

/-- One more asset is linked, with the bytes that were staged for it. -/
theorem Linked.put_file {b : Bytes} (h : Linked m pub linked) (put : Put m m' p (.file b))
    (head : p.head? = some imagesName) (staged : m (pub.name :: p) = some (.file b)) :
    Linked m' pub (linked ++ [p]) where
  images := put.keeps h.images
  nodup := by
    rw [List.nodup_append]
    refine ⟨h.nodup, List.nodup_singleton p, ?_⟩
    intro a mem a' mem' same
    rw [List.mem_singleton.mp mem'] at same
    obtain ⟨b', there, -⟩ := h.bytes a mem
    rw [same, put.absent] at there
    cases there
  bytes a mem := by
    rcases List.mem_append.mp mem with before | last
    · obtain ⟨b', there, staged'⟩ := h.bytes a before
      exact ⟨b', put.keeps there, put.keeps staged'⟩
    · rw [List.mem_singleton.mp last]
      exact ⟨b, put.there, put.keeps staged⟩
  only q node' found := by
    rcases put.from_ found with ⟨rfl, rfl⟩ | before
    · exact .inr ⟨head, .inl (by simp)⟩
    · rcases h.only q node' before with stage | ⟨below, mem | dir⟩
      · exact .inl stage
      · exact .inr ⟨below, .inl (List.mem_append_left _ mem)⟩
      · exact .inr ⟨below, .inr dir⟩

/-- The own `images` is made. -/
theorem Clean.put_images (h : Clean m pub) (put : Put m m' [imagesName] .dir) (ok : pub.Ok)
    (some : pub.assets ≠ []) : Linked m' pub [] where
  images := put.there
  nodup := List.nodup_nil
  bytes a mem := by cases mem
  only q node' found := by
    rcases put.from_ found with ⟨rfl, rfl⟩ | before
    · obtain ⟨a, mem⟩ := List.exists_mem_of_ne_nil _ some
      obtain ⟨n, q, is⟩ := ok.assets a mem
      exact .inr ⟨rfl, .inr ⟨rfl, a, mem, by simp [is], by simp [is]⟩⟩
    · exact .inl (h q node' before)

theorem Linked.dropping (h : Linked m pub linked) : Dropping m pub where
  images := h.images
  only p node found := (h.only p node found).imp_right And.left

/-- The main file is linked after all sidecars. -/
theorem Linked.publish (h : Linked m pub pub.assets) (staged : Staged m pub)
    (put : Put m m' [pub.target] (.file pub.main)) : Published m' pub where
  target := put.there
  images _ := put.keeps h.images
  sidecars s mem := by
    obtain ⟨b, there, inStage⟩ := h.bytes s.1 (List.mem_map_of_mem mem)
    rw [staged.sidecars h.nodup s mem] at inStage
    cases inStage
    exact put.keeps there
  only p node found := by
    rcases put.from_ found with ⟨is, -⟩ | before
    · exact .inr (.inl is)
    · rcases h.only p node before with stage | ⟨below, linked | dir⟩
      · exact .inl stage
      · obtain ⟨s, mem, rfl⟩ := List.mem_map.mp linked
        obtain ⟨b, there, inStage⟩ := h.bytes s.1 linked
        rw [staged.sidecars h.nodup s mem] at inStage
        cases inStage
        rw [there] at before
        cases before
        exact .inr (.inr ⟨below, .inl ⟨s, mem, rfl, rfl⟩⟩)
      · exact .inr (.inr ⟨below, .inr dir⟩)

/-- A rendering without assets is published by putting its main file. -/
theorem Clean.publish (h : Clean m pub) (none : pub.assets = [])
    (put : Put m m' [pub.target] (.file pub.main)) : Published m' pub where
  target := put.there
  images some := absurd (List.map_eq_nil_iff.mp none) some
  sidecars s mem := by
    rw [List.map_eq_nil_iff.mp none] at mem
    cases mem
  only p node found := by
    rcases put.from_ found with ⟨is, -⟩ | before
    · exact .inr (.inl is)
    · exact .inl (h p node before)

end Puts

section Drops

variable {m m' : Path → Option Node} {pub : PreparedRender} {p : Path}

theorem Clean.drop (h : Clean m pub) (get : ∀ q, m' q = if q = p then none else m q) :
    Clean m' pub := by
  intro q node found
  rw [get] at found
  split at found
  · cases found
  · exact h q node found

/-- The stage goes, and what is published stays. -/
theorem Published.drop (h : Published m pub) (ok : pub.Ok) (head : p.head? = some pub.name)
    (notTarget : p ≠ [pub.target]) (get : ∀ q, m' q = if q = p then none else m q) :
    Published m' pub := by
  have below : ∀ q, q.head? = some imagesName → q ≠ p := by
    rintro q images rfl
    rw [head] at images
    exact ok.name (Option.some.inj images)
  refine ⟨?_, ?_, ?_, ?_⟩
  · rw [get, if_neg (Ne.symm notTarget)]
    exact h.target
  · intro some
    rw [get, if_neg (below _ rfl)]
    exact h.images some
  · intro s mem
    obtain ⟨n, q, is⟩ := ok.assets s.1 (List.mem_map_of_mem mem)
    rw [get, if_neg (below _ (by rw [is]; rfl))]
    exact h.sidecars s mem
  · intro q node found
    rw [get] at found
    split at found
    · cases found
    · exact h.only q node found

/-- What is dropped is gone, and what is still to be dropped is the rest. -/
theorem Dropping.drop (h : Dropping m pub) (other : p ≠ [imagesName])
    (get : ∀ q, m' q = if q = p then none else m q) : Dropping m' pub where
  images := by
    rw [get, if_neg (Ne.symm other)]
    exact h.images
  only q node found := by
    rw [get] at found
    split at found
    · cases found
    · exact h.only q node found

end Drops

/-! ## The steps of a publisher -/

section Steps

variable {m : Path → Option Node} {pub : PreparedRender} {i : Nat} {root root' : Root}
  {l l' : Publisher}

theorem put_of {p : Path} {node : Node} (absent : root.get p = none)
    (get : ∀ q, root'.get q = if q = p then some ⟨some i, node⟩ else root.get q) :
    Put (root.made (some i)) (root'.made (some i)) p node :=
  ⟨Root.made_absent absent, Root.made_put get⟩

/-- The next asset is due, or the main file when no asset is left. -/
theorem nextAsset_stands {linked rest : List Path} (ok : pub.Ok) (owns : l.ownsImages = true)
    (staged : Staged m pub) (h : Linked m pub linked) (assets : pub.assets = linked ++ rest) :
    Stands m pub { l with ctl := nextAsset rest } := by
  cases rest with
  | nil =>
    rw [List.append_nil] at assets
    exact ⟨staged, .inl ⟨owns, assets ▸ h⟩⟩
  | cons path rest =>
    obtain ⟨n, q, rfl⟩ := ok.assets path (by simp [assets])
    exact ⟨owns, staged, ⟨linked, h, assets⟩, rfl, rfl⟩

/-- An error leads to the dropping of what the publisher owns. -/
theorem error_stands (owner : l.ownsImages = true → Dropping m pub)
    (other : l.ownsImages = false → Clean m pub) : Stands m pub l.error := by
  unfold Publisher.error
  cases owns : l.ownsImages with
  | true => exact owner owns
  | false => exact fun _ => other owns

theorem At.dropping {c : Cursor} (h : At m pub c) : Dropping m pub := by
  obtain ⟨linked, h, -⟩ := h.linked
  exact h.dropping

theorem At.images {c : Cursor} (h : At (root.made (some i)) pub c) :
    root.get [imagesName] = some ⟨some i, .dir⟩ := Root.made_some.mp h.dropping.images

/-- A file of the stage was made by its publisher. -/
theorem stage_mine (owned : root.Owned)
    (stage : ∀ e, root.get [pub.name] = some e → e.node = .dir → e.creator = some i) {p : Path}
    {e : Entry} (some : p ≠ []) (found : root.get (pub.name :: p) = .some e) :
    e.creator = .some i := by
  obtain ⟨t, top, dir⟩ := root.top (by rw [found]; simp) some
  exact (owned _ _ _ _ found top).trans (stage t top dir)

/-- What a `remove_dir_all` below an own top entry removes is its own. -/
theorem unlink_changed {name : Name} {p : Path} (owned : root.Owned)
    (mine : ∀ e, root.get [name] = some e → e.node = .dir → e.creator = some i)
    (taken : root.unlink name p = some root') : Root.Changed i root root' := by
  obtain ⟨⟨t, top, dir⟩, head, there, leaf, get⟩ := Root.unlink_some taken
  obtain ⟨e, found⟩ := Option.ne_none_iff_exists'.mp there
  obtain ⟨n, q, rfl⟩ := List.exists_cons_of_ne_nil (show p ≠ [] by rintro rfl; cases head)
  cases head
  have own : e.creator = some i := (owned _ _ _ _ found top).trans (mine t top dir)
  exact .gone _ e.node (by rw [found, ← own]) leaf get

/-- The last part of an asset is linked. -/
theorem linkPart_stands {c : Cursor} (ok : pub.Ok) (owned : root.Owned)
    (stage : ∀ e, root.get [pub.name] = some e → e.node = .dir → e.creator = some i)
    (owns : l.ownsImages = true) (staged : Staged (root.made (some i)) pub)
    (at_ : At (root.made (some i)) pub c) (last : c.parts = [])
    (linked : root.hardLink i (pub.name :: c.path) (c.parent ++ [c.part]) = some root') :
    Root.Changed i root root' ∧
      Stands (root'.made (some i)) pub { l with ctl := nextAsset c.rest } := by
  obtain ⟨done, linkedDone, assets⟩ := at_.linked
  have path := at_.path
  rw [last] at path
  rw [← path] at linked
  obtain ⟨n, q, whole⟩ := ok.assets c.path (by simp [assets])
  obtain ⟨creator, bytes, found, absent, get⟩ := Root.hardLink_some linked
  have mine : creator = some i := stage_mine owned stage (by rw [whole]; simp) found
  have put := put_of absent get
  have staged' := Root.made_some.mpr (mine ▸ found)
  refine ⟨.made _ _ absent get (fun n is dir => by cases dir) ?_, ?_⟩
  · intro n' q' is _
    rw [whole] at is
    cases is
    exact at_.images
  · exact nextAsset_stands ok owns (staged.put put)
      (linkedDone.put_file put (by rw [whole]; rfl) staged') (by simp [assets])

/-- A directory on the way to an asset is made. -/
theorem createPart_stands {c : Cursor} (owns : l.ownsImages = true)
    (staged : Staged (root.made (some i)) pub) (at_ : At (root.made (some i)) pub c)
    (more : c.parts ≠ []) (created : root.createDir i (c.parent ++ [c.part]) = some root') :
    Root.Changed i root root' ∧ Stands (root'.made (some i)) pub { l with ctl := .openPart c } := by
  obtain ⟨-, absent, get⟩ := Root.createDir_some created
  have put := put_of absent get
  obtain ⟨linked, done, assets⟩ := at_.linked
  have head := at_.parent
  obtain ⟨n, front, parent⟩ := List.exists_cons_of_ne_nil (show c.parent ≠ [] by
    intro nil
    rw [nil] at head
    cases head)
  rw [parent] at head
  cases head
  have above : pub.Above (c.parent ++ [c.part]) := by
    refine ⟨c.path, by simp [assets], ?_, ?_⟩
    · rw [at_.path, List.append_cons c.parent c.part c.parts]
      exact List.prefix_append _ _
    · intro same
      rw [at_.path, List.append_cons c.parent c.part c.parts] at same
      exact more (List.self_eq_append_right.mp same)
  refine ⟨.made _ _ absent get ?_ ?_, owns, staged.put put, ⟨⟨linked, ?_, assets⟩, at_.path,
    at_.parent⟩, more⟩
  · intro n is _
    rw [parent] at is
    simp at is
  · intro n q is _
    rw [parent] at is
    cases is
    exact at_.images
  · exact done.put_dir put (by rw [parent]; rfl) above

/-- The cursor enters a directory. -/
theorem At.enter {c : Cursor} {part : Name} {parts : List Name} (h : At m pub c)
    (rest : c.parts = part :: parts) :
    At m pub { c with parent := c.parent ++ [c.part], part, parts } where
  linked := h.linked
  path := by
    rw [h.path, rest]
    simp
  parent := by
    have head := h.parent
    cases is : c.parent with
    | nil =>
      rw [is] at head
      cases head
    | cons n front =>
      rw [is] at head
      simpa [is] using head

/-- The main file is linked: the commit point. -/
theorem linkTarget_stands (staged : Staged (root.made (some i)) pub)
    (before : Linked (root.made (some i)) pub pub.assets ∨
      (pub.assets = [] ∧ Clean (root.made (some i)) pub))
    (linked : root.hardLink i [pub.name, renderedName] [pub.target] = some root') :
    Root.Changed i root root' ∧ Published (root'.made (some i)) pub := by
  obtain ⟨creator, bytes, found, absent, get⟩ := Root.hardLink_some linked
  have main := Root.made_some.mp staged.main
  rw [main] at found
  cases found
  have put := put_of absent get
  refine ⟨.made _ _ absent get (fun n is dir => by cases dir) ?_, ?_⟩
  · intro n q is some
    cases is
    exact absurd rfl some
  · rcases before with assets | ⟨none, clean⟩
    · exact assets.publish staged put
    · exact clean.publish none put

/-- An operation that succeeds leads to the next position. -/
theorem go_stands (ok : pub.Ok) (owned : root.Owned)
    (stage : ∀ e, root.get [pub.name] = some e → e.node = .dir → e.creator = some i)
    (h : Stands (root.made (some i)) pub l) (taken : pub.go i root l = some (root', l')) :
    Root.Changed i root root' ∧ Stands (root'.made (some i)) pub l' := by
  unfold Stands at h
  unfold PreparedRender.go at taken
  cases ctl : l.ctl with
  | createImages =>
    simp only [ctl] at h taken
    obtain ⟨r, created, is⟩ := Option.bind_eq_some_iff.mp taken
    cases is
    obtain ⟨-, some, staged, clean⟩ := h
    obtain ⟨-, absent, get⟩ := Root.createDir_some created
    have put := put_of absent get
    exact ⟨.made _ _ absent get (fun n is _ => by cases is; rfl) (fun n q is nil => by
      cases is; exact absurd rfl nil), rfl, staged.put put, clean.put_images put ok some⟩
  | openImages =>
    simp only [ctl] at h taken
    obtain ⟨owns, staged, linked⟩ := h
    split at taken
    · cases taken
      exact ⟨.same rfl, nextAsset_stands ok owns staged linked rfl⟩
    · cases taken
  | part c =>
    simp only [ctl] at h taken
    obtain ⟨owns, staged, at_⟩ := h
    cases parts : c.parts with
    | nil =>
      rw [parts] at taken
      obtain ⟨r, linked, is⟩ := Option.bind_eq_some_iff.mp taken
      cases is
      exact linkPart_stands ok owned stage owns staged at_ parts linked
    | cons part more =>
      rw [parts] at taken
      cases taken
      refine ⟨.same rfl, ?_⟩
      split
      · exact ⟨owns, staged, at_, by simp [parts]⟩
      · exact ⟨owns, staged, at_, by simp [parts]⟩
  | createPart c =>
    simp only [ctl] at h taken
    obtain ⟨r, created, is⟩ := Option.bind_eq_some_iff.mp taken
    cases is
    obtain ⟨owns, staged, at_, more⟩ := h
    exact createPart_stands owns staged at_ more created
  | openPart c =>
    simp only [ctl] at h taken
    obtain ⟨owns, staged, at_, more⟩ := h
    split at taken
    · split at taken
      · cases taken
      · rename_i part parts rest
        cases taken
        exact ⟨.same rfl, owns, staged, at_.enter rest⟩
    · cases taken
  | linkTarget =>
    simp only [ctl] at h taken
    obtain ⟨r, linked, is⟩ := Option.bind_eq_some_iff.mp taken
    cases is
    obtain ⟨staged, before⟩ := h
    exact linkTarget_stands staged (before.imp And.right And.right) linked
  | removeStage | dropImages | dropStage | done =>
    simp only [ctl] at taken
    cases taken

/-- An operation that fails leads to the dropping. -/
theorem fail_stands (h : Stands m pub l) (taken : l.fail = some l') : Stands m pub l' := by
  unfold Stands at h
  unfold Publisher.fail at taken
  cases ctl : l.ctl with
  | createImages =>
    simp only [ctl] at h taken
    cases taken
    exact error_stands (fun owns => by rw [h.1] at owns; cases owns) fun _ => h.2.2.2
  | openImages =>
    simp only [ctl] at h taken
    cases taken
    exact error_stands (fun _ => h.2.2.dropping) fun other => by rw [h.1] at other; cases other
  | part c =>
    simp only [ctl] at h taken
    obtain ⟨owns, staged, at_⟩ := h
    cases parts : c.parts with
    | nil =>
      rw [parts] at taken
      cases taken
      exact error_stands (fun _ => at_.dropping) fun other => by rw [owns] at other; cases other
    | cons part more =>
      rw [parts] at taken
      cases taken
      exact ⟨owns, staged, at_, by simp [parts]⟩
  | createPart | openPart =>
    simp only [ctl] at h taken
    cases taken
    exact error_stands (fun _ => h.2.2.1.dropping) fun other => by rw [h.1] at other; cases other
  | linkTarget =>
    simp only [ctl] at h taken
    cases taken
    rcases h.2 with ⟨owns, linked⟩ | ⟨owns, -, clean⟩
    · exact error_stands (fun _ => linked.dropping) fun other => by rw [owns] at other; cases other
    · exact error_stands (fun owner => by rw [owns] at owner; cases owner) fun _ => clean
  | removeStage | dropImages =>
    simp only [ctl] at taken
    cases taken
    exact fun kept => by cases kept
  | dropStage ok =>
    simp only [ctl] at h taken
    cases taken
    exact h
  | done ok =>
    simp only [ctl] at taken
    cases taken

/-- An entry of the stage goes, and the target is not there. -/
theorem stage_drop {p : Path} (ok : pub.Ok) (unlinked : root.unlink pub.name p = some root')
    (h : Published (root.made (some i)) pub) : Published (root'.made (some i)) pub := by
  obtain ⟨⟨t, top, dir⟩, head, -, -, get⟩ := Root.unlink_some unlinked
  refine h.drop ok head ?_ (Root.made_drop get)
  intro is
  rw [is] at head
  have target := Root.made_some.mp h.target
  rw [Option.some.inj head, top] at target
  cases target
  cases dir

/-- An unlinking in the course of the dropping. -/
theorem unlink_stands {p : Path} (ok : pub.Ok) (owned : root.Owned)
    (stage : ∀ e, root.get [pub.name] = some e → e.node = .dir → e.creator = some i)
    (h : Stands (root.made (some i)) pub l) (taken : pub.unlink root l p = some (root', l')) :
    Root.Changed i root root' ∧ Stands (root'.made (some i)) pub l' := by
  unfold Stands at h
  unfold PreparedRender.unlink at taken
  cases ctl : l.ctl with
  | removeStage =>
    simp only [ctl] at h taken
    obtain ⟨r, unlinked, is⟩ := Option.bind_eq_some_iff.mp taken
    cases is
    refine ⟨unlink_changed owned stage unlinked, ?_⟩
    have published := stage_drop ok unlinked h
    split
    · exact published
    · exact published
  | dropImages =>
    simp only [ctl] at h taken
    obtain ⟨r, unlinked, is⟩ := Option.bind_eq_some_iff.mp taken
    cases is
    have images := Root.made_some.mp h.images
    obtain ⟨-, head, -, leaf, get⟩ := Root.unlink_some unlinked
    refine ⟨unlink_changed owned (fun e found _ => by rw [images] at found; cases found; rfl)
      unlinked, ?_⟩
    by_cases last : p = [imagesName]
    · subst last
      rw [if_pos rfl]
      intro _ q node found
      rw [Root.made_drop get] at found
      split at found
      · cases found
      · rename_i other
        rcases h.only q node found with inStage | below
        · exact inStage
        · obtain ⟨n, q, rfl⟩ := List.exists_cons_of_ne_nil (show q ≠ [] by rintro rfl; cases below)
          cases below
          have gone := Root.below_childless (q := q) leaf (by rintro rfl; exact other rfl)
          rw [Root.made_some] at found
          rw [List.singleton_append, found] at gone
          cases gone
    · rw [if_neg last]
      exact h.drop last (Root.made_drop get)
  | dropStage returned =>
    simp only [ctl] at h taken
    obtain ⟨r, unlinked, is⟩ := Option.bind_eq_some_iff.mp taken
    cases is
    refine ⟨unlink_changed owned stage unlinked, ?_⟩
    obtain ⟨-, head, -, leaf, get⟩ := Root.unlink_some unlinked
    cases returned with
    | true =>
      have published := stage_drop ok unlinked h
      split
      · exact published
      · exact published
    | false =>
      have clean : l.removalFailed = false → Clean (root'.made (some i)) pub := fun kept =>
        Clean.drop (h kept) (Root.made_drop get)
      split
      · exact clean
      · exact clean
  | createImages | openImages | part | createPart | openPart | linkTarget | done =>
    simp only [ctl] at taken
    cases taken

/-- One step of a publisher changes no entry of another one, and leads on in its commit. -/
theorem act_stands {move : Move} (ok : pub.Ok) (owned : root.Owned)
    (stage : ∀ e, root.get [pub.name] = some e → e.node = .dir → e.creator = some i)
    (h : Stands (root.made (some i)) pub l) (taken : pub.act i root l move = some (root', l')) :
    Root.Changed i root root' ∧ Stands (root'.made (some i)) pub l' := by
  cases move with
  | go => exact go_stands ok owned stage h taken
  | fail =>
    obtain ⟨next, failed, is⟩ := Option.map_eq_some_iff.mp taken
    cases is
    exact ⟨.same rfl, fail_stands h failed⟩
  | unlink p => exact unlink_stands ok owned stage h taken

end Steps

end Mineru.Render
