import Mineru.Official.Listing

/-!
# Walking through a listing

A client reads a listing page by page, each time with the last identifier it got as the cursor. With
distinct identifiers the sorted listing does not depend on the order in which the hash map is
enumerated (`sortListing_perm_eq`), and the cursor finds its place again (`drainThrough_last`). So
every page continues where the one before it ended (`visitFiles_rest`).

The sequence of calls is a function of its own, which goes on as long as a page says that there is
more. It ends because each page moves the cursor on. The map may be enumerated in another order at
each call.

Files that come or go between two calls are not considered: the walk is over one set of files.
-/

set_option autoImplicit false

namespace Mineru.Official

open Logic

section
variable {α κ : Type} [LinearOrder κ] {created : α → κ} {id : α → Text} {order : Option ListOrder}

/-! ## The sorted listing -/

/-- `a` stands before `b` in the listing. -/
def Listed (created : α → κ) (id : α → Text) (order : Option ListOrder) (a b : α) : Prop :=
  if order = some .desc then toLex (created b, id b) < toLex (created a, id a)
  else toLex (created a, id a) < toLex (created b, id b)

theorem sortListing_perm (created : α → κ) (id : α → Text) (order : Option ListOrder)
    (data : List α) : (sortListing created id order data).Perm data := by
  unfold sortListing
  dsimp only
  split
  · exact (List.reverse_perm _).trans (List.perm_insertionSort _ data)
  · exact List.perm_insertionSort _ data

theorem insertionSort_key (created : α → κ) (id : α → Text) (data : List α) :
    (data.insertionSort fun a b => toLex (created a, id a) ≤ toLex (created b, id b)).Pairwise
      fun a b => toLex (created a, id a) ≤ toLex (created b, id b) := by
  have total : Std.Total fun a b : α => toLex (created a, id a) ≤ toLex (created b, id b) :=
    ⟨fun a b => le_total _ _⟩
  have trans : IsTrans α fun a b : α => toLex (created a, id a) ≤ toLex (created b, id b) :=
    ⟨fun a b c => le_trans⟩
  exact List.pairwise_insertionSort _ data

/-- Distinct identifiers make the order strict. -/
theorem sortListing_pairwise {data : List α} (distinct : (data.map id).Nodup) :
    (sortListing created id order data).Pairwise (Listed created id order) := by
  have sorted := insertionSort_key created id data
  have ids : (data.insertionSort fun a b => toLex (created a, id a) ≤ toLex (created b, id b)
      ).Pairwise fun a b => id a ≠ id b :=
    List.pairwise_map.mp (((List.perm_insertionSort _ data).map id).nodup_iff.mpr distinct)
  have strict := (sorted.and ids).imp fun {a b} both => lt_of_le_of_ne both.1 fun same =>
    both.2 (congrArg Prod.snd (toLex.injective same))
  unfold sortListing Listed
  dsimp only
  split
  · rw [List.pairwise_reverse]
    exact strict
  · exact strict

theorem Listed.antisymm {a b : α} (ab : Listed created id order a b)
    (ba : Listed created id order b a) : False := by
  by_cases desc : order = some .desc
  · simp only [Listed, if_pos desc] at ab ba
    exact lt_asymm ab ba
  · simp only [Listed, if_neg desc] at ab ba
    exact lt_asymm ab ba

/-- The listing does not depend on how the map was enumerated. -/
theorem sortListing_perm_eq (created : α → κ) (order : Option ListOrder) {data data' : List α}
    (same : data.Perm data') (distinct : (data.map id).Nodup) :
    sortListing created id order data = sortListing created id order data' := by
  refine @List.Perm.eq_of_pairwise _ (Listed created id order) _ _ ?_
    (sortListing_pairwise distinct)
    (sortListing_pairwise ((same.map id).nodup_iff.mp distinct)) ?_
  · exact fun a b _ _ ab ba => (ab.antisymm ba).elim
  · exact (sortListing_perm _ _ _ data).trans (same.trans (sortListing_perm _ _ _ data').symm)

/-! ## The cursor -/

/-- The cursor leaves what follows it. -/
theorem drainThrough_last {seen rest : List α} {last : α}
    (distinct : ((seen ++ last :: rest).map id).Nodup) :
    drainThrough id (some (id last)) (seen ++ last :: rest) = rest := by
  have unseen : seen.findIdx? (fun f => id f = id last) = none := by
    rw [List.findIdx?_eq_none_iff]
    intro f mem
    rw [decide_eq_false_iff_not]
    intro same
    rw [List.map_append, List.map_cons, List.nodup_append] at distinct
    exact distinct.2.2 (id f) (List.mem_map_of_mem mem) (id last) List.mem_cons_self same
  have found : (seen ++ last :: rest).findIdx? (fun f => id f = id last) = some seen.length := by
    rw [List.findIdx?_append, unseen, List.findIdx?_cons]
    simp
  unfold drainThrough
  rw [Option.bind_some, found]
  change (seen ++ last :: rest).drop (seen.length + 1) = rest
  rw [List.drop_append, List.drop_of_length_le (Nat.le_succ _), Nat.add_sub_cancel_left]
  rfl

end

/-! ## Files -/

/-- The files of the store. -/
def Store.files (s : Store) : List FileObject := s.listed none

/-- The purpose filter. -/
def hasPurpose (purpose : Option Text) (f : FileObject) : Bool := purpose.all (· = f.purpose)

theorem Store.listed_eq (s : Store) (purpose : Option Text) :
    s.listed purpose = s.files.filter (hasPurpose purpose) := by
  unfold Store.files Store.listed
  rw [List.filter_filterMap]
  refine List.filterMap_congr fun row _ => ?_
  obtain ⟨id, entry⟩ := row
  cases entry with
  | upload u => rfl
  | file f =>
    simp only [Option.all_none, if_true]
    by_cases wanted : hasPurpose purpose f.object = true
    · rw [Option.filter_some_pos wanted]
      exact if_pos wanted
    · rw [Option.filter_some_neg (Bool.eq_false_iff.mpr wanted)]
      exact if_neg wanted

/-- The pages that a client reads from one call on, with the last identifier of a page as the cursor
of the next call. -/
def visitFiles (stores : Nat → Store) : Nat → Nat → FileQuery → Option (List FileObject)
  | 0, _, _ => none
  | fuel + 1, call, query =>
    (listFiles (stores call) (some query)).2.toOption.bind fun page =>
      if page.hasMore then
        (visitFiles stores fuel (call + 1) { query with after := page.lastId }).map (page.data ++ ·)
      else some page.data

theorem refuseIf_neg {c : Prop} [Decidable c] {e : WireError} (h : ¬ c) : refuseIf c e = .ok () :=
  if_neg h

theorem Pagination.validate_ok {p : Pagination} {default max : Nat}
    (h : ¬ (p.limit.getD default = 0 ∨ p.limit.getD default > max)) :
    p.validate default max = .ok (p.limit.getD default) := if_neg h

theorem page_hasMore {α : Type} {id : α → Text} {limit : Nat} {data : List α} :
    (ListResponse.page id limit data).hasMore = true ↔ limit < data.length := decide_eq_true_iff

/-- A query that the endpoint accepts. -/
structure FileQuery.Accepted (query : FileQuery) : Prop where
  purpose : query.purpose ∈ [none, some (text "parse"), some (text "input_image")]
  limit : query.limit.getD 100 ∈ Set.Icc 1 1000

theorem listFiles_accepted (s : Store) {query : FileQuery} (h : query.Accepted) :
    (listFiles s (some query)).2 = .ok (.page (fun f => f.id.text) (query.limit.getD 100)
      (drainThrough (fun f => f.id.text) query.after
        (sortListing FileObject.createdAt (fun f => f.id.text) query.order
          (s.cleanupExpired.1.files.filter (hasPurpose query.purpose))))) := by
  have purpose : ¬ (query.purpose.any fun p => p ∉ [text "parse", text "input_image"]) = true := by
    have := h.purpose
    simp only [List.mem_cons, List.not_mem_nil, or_false] at this
    rcases this with none | parse | image
    · rw [none]
      exact Bool.false_ne_true
    · rw [parse]
      decide +kernel
    · rw [image]
      decide +kernel
  have limit : ¬ (query.limit.getD 100 = 0 ∨ query.limit.getD 100 > 1000) := by
    have := h.limit.1
    have := h.limit.2
    omega
  rw [← Store.listed_eq]
  change (refuseIf _ _ >>= fun _ => Pagination.validate _ 100 1000 >>= _) = _
  rw [refuseIf_neg purpose]
  change (Pagination.validate _ 100 1000 >>= _) = _
  rw [Pagination.validate_ok limit]
  rfl

/-- The front of a list, its last element, and the rest. -/
theorem take_snoc {α : Type} {l : List α} {n : Nat} (positive : 1 ≤ n) (more : n < l.length) :
    ∃ front last, l.take n = front ++ [last] ∧ l = front ++ last :: l.drop n := by
  have filled : l.take n ≠ [] := by
    rw [ne_eq, List.take_eq_nil_iff]
    intro empty
    rcases empty with zero | nil
    · omega
    · rw [nil] at more
      exact absurd more (Nat.not_lt_zero n)
  refine ⟨(l.take n).dropLast, (l.take n).getLast filled, ?_, ?_⟩
  · exact (List.dropLast_append_getLast filled).symm
  · rw [List.append_cons, List.dropLast_append_getLast, List.take_append_drop]

section
variable {stores : Nat → Store} {files : List FileObject}

/-- From a call whose cursor leaves `rest` of the listing, the client reads `rest`. -/
theorem visitFiles_rest {query : FileQuery} (accepted : query.Accepted)
    (same : ∀ call, (stores call).cleanupExpired.1.files.Perm files)
    (distinct : (files.map fun f => f.id.text).Nodup) (fuel call : Nat) (after : Option Text)
    (seen : List FileObject) {rest : List FileObject}
    (whole : sortListing FileObject.createdAt (fun f => f.id.text) query.order
      (files.filter (hasPurpose query.purpose)) = seen ++ rest)
    (left : drainThrough (fun f => f.id.text) after (seen ++ rest) = rest)
    (enough : rest.length < fuel) :
    visitFiles stores fuel call { query with after } = some rest := by
  induction fuel generalizing call after seen rest with
  | zero => exact absurd enough (Nat.not_lt_zero _)
  | succ fuel ih =>
    have chosen : ((files.filter (hasPurpose query.purpose)).map fun f => f.id.text).Nodup :=
      distinct.sublist (List.filter_sublist.map _)
    have again : FileQuery.Accepted { query with after } := ⟨accepted.purpose, accepted.limit⟩
    have page := listFiles_accepted (stores call) again
    have listing := sortListing_perm_eq FileObject.createdAt query.order
      ((same call).filter (hasPurpose query.purpose)).symm chosen
    dsimp only at page
    rw [← listing, whole, left] at page
    unfold visitFiles
    rw [page]
    change (if (ListResponse.page _ _ rest).hasMore = true then _ else _) = _
    by_cases more : query.limit.getD 100 < rest.length
    · rw [if_pos (page_hasMore.mpr more)]
      obtain ⟨front, last, taken, split⟩ := take_snoc accepted.limit.1 more
      have cursor : (ListResponse.page (fun f : FileObject => f.id.text)
          (query.limit.getD 100) rest).lastId = some last.id.text := by
        unfold ListResponse.page
        rw [taken, List.getLast?_concat, Option.map_some]
      rw [cursor]
      have whole' : sortListing FileObject.createdAt (fun f => f.id.text) query.order
          (files.filter (hasPurpose query.purpose)) =
          (seen ++ front ++ [last]) ++ rest.drop (query.limit.getD 100) := by
        rw [whole, List.append_assoc, List.append_assoc, List.singleton_append, ← split]
      have nodup : ((seen ++ front ++ last :: rest.drop (query.limit.getD 100)).map
          fun f => f.id.text).Nodup := by
        rw [List.append_cons, ← whole']
        exact ((sortListing_perm _ _ _ _).map _).nodup_iff.mpr chosen
      have next := ih (call + 1) (some last.id.text) _ whole' ?_ ?_
      · rw [next, Option.map_some]
        exact congrArg some (List.take_append_drop _ rest)
      · rw [← List.append_cons]
        exact drainThrough_last nodup
      · rw [List.length_drop]
        have := accepted.limit.1
        omega
    · rw [if_neg (mt page_hasMore.mp more)]
      exact congrArg some (List.take_of_length_le (Nat.le_of_not_lt more))

/-- **Reading page by page visits every matching file once**, in the order of the listing, for every
limit and whatever order the map is enumerated in at each call. -/
theorem list_files_complete {query : FileQuery} (accepted : query.Accepted)
    (start : query.after = none)
    (same : ∀ call, (stores call).cleanupExpired.1.files.Perm files)
    (distinct : (files.map fun f => f.id.text).Nodup) :
    ∃ visited, (∀ fuel, files.length < fuel → visitFiles stores fuel 0 query = some visited) ∧
      visited.Perm (files.filter (hasPurpose query.purpose)) ∧
      visited.Pairwise (Listed FileObject.createdAt (fun f => f.id.text) query.order) := by
  have listed := sortListing_perm FileObject.createdAt (fun f => f.id.text) query.order
    (files.filter (hasPurpose query.purpose))
  refine ⟨_, ?_, listed, ?_⟩
  · intro fuel enough
    obtain ⟨after, limit, order, purpose⟩ := query
    cases start
    refine visitFiles_rest accepted same distinct fuel 0 none [] rfl rfl ?_
    rw [listed.length_eq]
    exact (List.length_filter_le _ _).trans_lt enough
  · exact sortListing_pairwise (distinct.sublist (List.filter_sublist.map _))

end

/-- A file of one byte that was created at `createdAt`. -/
def sampleFile (n createdAt : Nat) : FileObject where
  id := .file n
  bytes := 1
  createdAt := createdAt
  expiresAt := none
  filename := text "a.csv"
  purpose := text "parse"
  sha256sum := none

/-- A store with two files. -/
def sampleStore : Store :=
  { Store.empty 9 with
    entries := ((∅ : Table Id Entry).set (.file 1) (.file ⟨sampleFile 1 8, ⟨[0], 0⟩, false, none⟩)).set
      (.file 2) (.file ⟨sampleFile 2 7, ⟨[0], 1⟩, false, none⟩) }

/-- Two files, read one by one. -/
theorem list_files_complete_two :
    ∃ visited, (∀ fuel, [sampleFile 2 7, sampleFile 1 8].length < fuel →
        visitFiles (fun _ => sampleStore) fuel 0 ⟨none, some 1, some .desc, none⟩ = some visited) ∧
      visited.Perm ([sampleFile 2 7, sampleFile 1 8].filter (hasPurpose none)) ∧
      visited.Pairwise (Listed FileObject.createdAt (fun f => f.id.text) (some .desc)) :=
  @list_files_complete (fun _ => sampleStore) [sampleFile 2 7, sampleFile 1 8]
    ⟨none, some 1, some .desc, none⟩ ⟨List.mem_cons_self, by decide⟩ rfl
    (fun _ => List.Perm.refl _) (by decide +kernel)

end Mineru.Official
