import DocQuery.Proofs.StableSort
/-!
# DocQuery.Proofs.SortedRuns

The sort of many elements, by runs and around pivots. It is a way of getting to the order that
insertion gives: each step moves elements only past ones that they are not tied with, so that
`insertionSort` of all elements stays the same, and a run that counts as sorted is in order. Joining
runs is done by one step over and over, and what the step keeps, the whole of it keeps
(`Sorting.joinAll_induction`).

If the elements can be sorted, there is a result, and it is the stable order
(`Sorting.sort_eq_insertionSort`). If they cannot, there may be none; if there is one, it holds
the same elements (`Sorting.perm_sort`).
-/

namespace DocQuery

namespace Sorting

variable {α : Type} {precedes : α → α → Bool}

/-! ### Runs as they are found -/

/-- A run takes an element at least. -/
theorem linkedLength_pos (linked : α → α → Bool) {elements : List α} (h : elements ≠ []) :
    0 < linkedLength linked elements := by
  fun_induction linkedLength linked elements with
  | case1 a b rest hab ih => omega
  | case2 a b rest hab => omega
  | case3 few hfew => exact List.length_pos_of_ne_nil h

/-- If links can be put together, all elements of a run are linked. -/
theorem pairwise_linked {linked : α → α → Bool} {elements : List α}
    (h : ∀ a ∈ elements, ∀ b ∈ elements, ∀ d ∈ elements,
      linked a b = true → linked b d = true → linked a d = true) :
    (elements.take (linkedLength linked elements)).Pairwise (linked · · = true) := by
  fun_induction linkedLength linked elements with
  | case1 a b rest hab ih =>
      have hrest := ih fun c hc d hd e he =>
        h c (List.mem_cons_of_mem a hc) d (List.mem_cons_of_mem a hd) e (List.mem_cons_of_mem a he)
      obtain ⟨n, hn⟩ := Nat.exists_eq_succ_of_ne_zero
        (linkedLength_pos linked (List.cons_ne_nil b rest)).ne'
      rw [hn, List.take_succ_cons] at hrest ⊢
      rw [List.take_succ_cons, List.pairwise_cons]
      -- The first element is linked to the second one, and by this one to all behind.
      refine ⟨fun y hy => ?_, hrest⟩
      rcases List.mem_cons.mp hy with rfl | hy'
      · exact hab
      · exact h a (by simp) b (by simp) y (by simp [List.mem_of_mem_take hy']) hab
          ((List.pairwise_cons.mp hrest).1 y hy')
  | case2 a b rest hab => simp
  | case3 few hfew =>
      rw [List.take_length]
      match few, hfew with
      | [], _ => exact .nil
      | [a], _ => exact List.pairwise_singleton _ _
      | a :: b :: rest, hfew => exact (hfew a b rest rfl).elim

/-- Linked elements that do not have to precede one another are in order. -/
theorem inOrder_linked {elements : List α} (h : Sortable precedes elements) :
    InOrder precedes (elements.take (linkedLength (fun a b => precedes b a == false) elements)) :=
  (pairwise_linked fun a ha b hb d hd hab hbd => by
    simpa using h.trans a ha b hb d hd (by simpa using hab) (by simpa using hbd)).imp
    fun hab => by simpa using hab

/-- Elements that each have to precede the one in front are in order the other way round. No two
of them are tied. -/
theorem isStable_reverse_linked {elements : List α} (h : Sortable precedes elements) :
    let found := elements.take (linkedLength (fun a b => precedes b a == true) elements)
    IsStable precedes found found.reverse := by
  intro found
  have hsub : found ⊆ elements := (List.take_sublist _ _).subset
  have hlinked : found.Pairwise fun a b => precedes b a = true := by
    refine (pairwise_linked fun a ha b hb d hd hab hbd => ?_).imp fun hab => by simpa using hab
    -- A link is a strict precedence. If the two outer elements were not in it, the inner one would
    -- not have to precede the first either.
    by_contra hda
    have hbd' := h.asymm d hd b hb (by simpa using hbd)
    have := h.trans a ha d hd b hb (by simpa using hda) hbd'
    simp_all
  refine ⟨List.reverse_perm _, ?_, fun x hx => ?_⟩
  · refine List.pairwise_reverse.mpr (hlinked.imp_of_mem fun {a b} ha hb hba => ?_)
    exact h.asymm b (hsub hb) a (hsub ha) hba
  · rw [List.filter_reverse]
    -- Two elements of the run that are tied would not be linked, so each is tied with itself alone.
    have hfew := hlinked.filter (tied precedes x)
    match hties : found.filter (tied precedes x) with
    | [] => rfl
    | [a] => rfl
    | a :: b :: rest =>
        rw [hties] at hfew
        have hmem {y : α} (hy : y ∈ a :: b :: rest) : y ∈ found ∧ tied precedes x y = true :=
          List.mem_filter.mp (hties ▸ hy)
        have ha := hmem (y := a) (by simp)
        have hb := hmem (y := b) (by simp)
        have := h.not_precedes_of_tied (hsub hx) (hsub ha.1) (hsub hb.1) ha.2 hb.2
        simp [this] at hfew

/-- What is in order about a run. In an eager sort each run counts as sorted. -/
structure Run.Valid (precedes : α → α → Bool) (eager : Bool) (run : Run α) : Prop where
  inOrder : run.isSorted = true → InOrder precedes run.elements
  sorted : eager = true → run.isSorted = true

variable {eager : Bool} {good : Nat}

/-- As many elements as there are among the first of them. -/
theorem take_length_take (elements : List α) (n : Nat) :
    elements.take (elements.take n).length = elements.take n := by
  rw [List.length_take, ← List.take_take, List.take_length]

/-- A run takes some of the elements in front, and moves only these. -/
theorem perm_nextRun {elements : List α} {run : Run α} (hgood : 0 < good) (hne : elements ≠ [])
    (h : nextRun precedes eager good elements = some run) :
    0 < run.elements.length ∧
      run.elements.Perm (elements.take run.elements.length) := by
  -- It is enough to know how many elements are taken, even if there are not as many.
  suffices ∃ n, 0 < n ∧ run.elements.Perm (elements.take n) by
    obtain ⟨n, hn, hperm⟩ := this
    rw [hperm.length_eq, take_length_take]
    refine ⟨?_, hperm⟩
    rw [List.length_take]
    have := List.length_pos_of_ne_nil hne
    omega
  rw [nextRun] at h
  split at h
  case isTrue hlong =>
    obtain rfl := Option.some.inj h
    refine ⟨_, Nat.lt_of_lt_of_le hgood hlong, ?_⟩
    dsimp only
    split
    · exact List.reverse_perm _
    · exact .refl _
  case isFalse hshort =>
    split at h
    case isTrue =>
      obtain ⟨sorted, hsorted, rfl⟩ := Option.map_eq_some_iff.mp h
      exact ⟨smallLength, by decide, perm_smallSort hsorted⟩
    case isFalse =>
      obtain rfl := Option.some.inj h
      exact ⟨good, hgood, .refl _⟩

/-- Of elements that can be sorted there is a run, in which no element has moved past one that it
is tied with. -/
theorem nextRun_sortable (eager : Bool) (good : Nat) {elements : List α}
    (h : Sortable precedes elements) :
    ∃ run, nextRun precedes eager good elements = some run ∧ run.Valid precedes eager ∧
      insertionSort precedes run.elements =
        insertionSort precedes (elements.take run.elements.length) := by
  have htake (n : Nat) : Sortable precedes (elements.take n) :=
    h.mono (List.take_sublist n elements).subset
  rw [nextRun]
  split
  case isTrue hlong =>
    -- A run that goes up is taken as it stands, one that goes down the other way round.
    cases hdown : startsDown precedes elements with
    | true =>
        have hstable := isStable_reverse_linked h
        refine ⟨_, rfl, ⟨fun _ => hstable.inOrder, fun _ => rfl⟩, ?_⟩
        change insertionSort precedes (List.reverse _) =
          insertionSort precedes (elements.take (List.reverse _).length)
        rw [hstable.perm.length_eq, take_length_take, hstable.insertionSort_eq (htake _),
          insertionSort_of_inOrder ((htake _).perm hstable.perm) hstable.inOrder]
    | false =>
        refine ⟨_, rfl, ⟨fun _ => inOrder_linked h, fun _ => rfl⟩, ?_⟩
        exact congrArg (insertionSort precedes) (take_length_take elements _).symm
  case isFalse hshort =>
    split
    case isTrue heager =>
      have hstable := isStable_insertionSort (htake smallLength)
      refine ⟨⟨insertionSort precedes (elements.take smallLength), true⟩, ?_,
        ⟨fun _ => hstable.inOrder, fun _ => rfl⟩, ?_⟩
      · rw [smallSort_eq (htake smallLength)]
        rfl
      · rw [hstable.perm.length_eq, take_length_take, insertionSort_idem (htake smallLength)]
    case isFalse hlazy =>
      refine ⟨_, rfl, ⟨nofun, fun heager => (hlazy heager).elim⟩, ?_⟩
      rw [take_length_take]

/-- The elements of runs. -/
def contents (runs : List (Run α)) : List α := runs.flatMap Run.elements

theorem contents_append (front back : List (Run α)) :
    contents (front ++ back) = contents front ++ contents back :=
  List.flatMap_append

theorem contents_cons (run : Run α) (back : List (Run α)) :
    contents (run :: back) = run.elements ++ contents back :=
  List.flatMap_cons

/-- A run of the first elements is in front of what is left of them. -/
theorem take_append_rest (first : α) (rest : List α) {n : Nat} (hn : 0 < n) :
    (first :: rest).take n ++ rest.drop (n - 1) = first :: rest := by
  obtain ⟨m, rfl⟩ := Nat.exists_eq_succ_of_ne_zero hn.ne'
  rw [List.take_succ_cons, List.cons_append, Nat.succ_sub_one, List.take_append_drop]

/-- Runs hold all elements, and each its own stretch of them. -/
theorem perm_runs {elements : List α} {found : List (Run α)} (hgood : 0 < good)
    (h : runs precedes eager good elements = some found) : (contents found).Perm elements := by
  fun_induction runs precedes eager good elements generalizing found with
  | case1 =>
      obtain rfl := Option.some.inj h
      exact .refl _
  | case2 first rest ih =>
      obtain ⟨run, hrun, hrest⟩ := Option.bind_eq_some_iff.mp h
      obtain ⟨others, hothers, heq⟩ := Option.bind_eq_some_iff.mp hrest
      obtain rfl := Option.some.inj heq
      obtain ⟨hpos, hperm⟩ := perm_nextRun hgood (List.cons_ne_nil first rest) hrun
      rw [contents_cons]
      have := hperm.append (ih run hothers)
      rwa [take_append_rest first rest hpos] at this

/-- Elements that can be sorted are cut into runs. -/
theorem runs_sortable (eager : Bool) {elements : List α} (hgood : 0 < good)
    (h : Sortable precedes elements) :
    ∃ found, runs precedes eager good elements = some found ∧
      (∀ run ∈ found, run.Valid precedes eager) ∧
      insertionSort precedes (contents found) = insertionSort precedes elements := by
  fun_induction runs precedes eager good elements with
  | case1 => exact ⟨[], rfl, nofun, rfl⟩
  | case2 first rest ih =>
      obtain ⟨run, hrun, hvalid, hsort⟩ := nextRun_sortable eager good h
      obtain ⟨hpos, hperm⟩ := perm_nextRun hgood (List.cons_ne_nil first rest) hrun
      -- The run takes the front, so the others are runs of what is left.
      have hsplit := take_append_rest first rest hpos
      have hdrop := h.mono (hsplit ▸ List.subset_append_right _ _)
      obtain ⟨others, hothers, hvalids, hsorts⟩ := ih run hdrop
      refine ⟨run :: others, ?_, List.forall_mem_cons.mpr ⟨hvalid, hvalids⟩, ?_⟩
      · exact Option.bind_eq_some_iff.mpr
          ⟨run, hrun, Option.bind_eq_some_iff.mpr ⟨others, hothers, rfl⟩⟩
      · rw [contents_cons, insertionSort_append_congr (hsplit.symm ▸ h) hperm
          (perm_runs hgood hothers) hsort hsorts, hsplit]

/-- A run that is left as it is takes some elements. -/
theorem goodLength_pos {elements : List α} (h : elements ≠ []) :
    0 < goodLength elements.length := by
  have hpos := List.length_pos_of_ne_nil h
  rw [goodLength]
  split
  case isTrue => omega
  case isFalse hlong =>
    have hle : elements.length ≤ elements.length ||| 1 := Nat.left_le_or
    have hlog : 1 ≤ (elements.length ||| 1).log2 := (Nat.le_log2 (by omega)).mpr (by omega)
    -- Beyond 4096 elements the sum of both terms is two at least, and so its half is not zero.
    have hshift : 2 ≤ 1 <<< ((1 + (elements.length ||| 1).log2) / 2) := by
      rw [Nat.one_shiftLeft]
      exact Nat.pow_le_pow_right (n := 2) (by decide) (by omega : 1 ≤ _)
    exact Nat.div_pos (hshift.trans (Nat.le_add_right _ _)) (by decide)

/-! ### Runs that are joined

For each step there are two facts again: it loses no element, and on elements that can be sorted it
succeeds without changing what insertion gives. The sort `quick` of a run that has been left is a
parameter here; it is the one around pivots, or none at all in an eager sort. -/

variable {scratch : Nat} {quick : List α → Option (List α)}

/-- A run is settled without loss. -/
theorem perm_settle {run : Run α} {sorted : List α}
    (hquick : ∀ elements sorted, quick elements = some sorted → sorted.Perm elements)
    (h : run.settle quick = some sorted) : sorted.Perm run.elements := by
  rw [Run.settle] at h
  split at h
  · obtain rfl := Option.some.inj h
    exact .refl _
  · exact hquick _ _ h

/-- A run that counts as sorted is sorted, and any other one is handed on. -/
theorem settle_sortable {run : Run α} (h : Sortable precedes run.elements)
    (hvalid : run.Valid precedes eager)
    (hquick : eager = false → ∀ elements, Sortable precedes elements →
      quick elements = some (insertionSort precedes elements)) :
    run.settle quick = some (insertionSort precedes run.elements) := by
  rw [Run.settle]
  split
  case isTrue hsorted => rw [insertionSort_of_inOrder h (hvalid.inOrder hsorted)]
  case isFalse hunsorted =>
    have heager : eager = false := by
      by_contra hne
      exact hunsorted (hvalid.sorted (by simpa using hne))
    exact hquick heager _ h

/-- Two runs are joined without loss. -/
theorem perm_joinRuns {left right joined : Run α}
    (hquick : ∀ elements sorted, quick elements = some sorted → sorted.Perm elements)
    (h : joinRuns precedes scratch quick left right = some joined) :
    joined.elements.Perm (left.elements ++ right.elements) := by
  rw [joinRuns] at h
  split at h
  case isTrue =>
    obtain rfl := Option.some.inj h
    exact .refl _
  case isFalse =>
    obtain ⟨l, hl, h⟩ := Option.bind_eq_some_iff.mp h
    obtain ⟨r, hr, h⟩ := Option.bind_eq_some_iff.mp h
    obtain rfl := Option.some.inj h
    exact (perm_mergeRuns _ _ _).trans ((perm_settle hquick hl).append (perm_settle hquick hr))

/-- Two runs of elements that can be sorted are joined, either put together unsorted, as in no eager
sort, or sorted by themselves and merged. -/
theorem joinRuns_sortable (scratch : Nat) {left right : Run α}
    (h : Sortable precedes (left.elements ++ right.elements))
    (hleft : left.Valid precedes eager) (hright : right.Valid precedes eager)
    (hquick : eager = false → ∀ elements, Sortable precedes elements →
      quick elements = some (insertionSort precedes elements)) :
    ∃ joined, joinRuns precedes scratch quick left right = some joined ∧
      joined.Valid precedes eager ∧
      insertionSort precedes joined.elements =
        insertionSort precedes (left.elements ++ right.elements) := by
  have hl := h.mono (List.subset_append_left _ _)
  have hr := h.mono (List.subset_append_right _ _)
  have hlStable := isStable_insertionSort hl
  have hrStable := isStable_insertionSort hr
  rw [joinRuns]
  split
  case isTrue hboth =>
    refine ⟨_, rfl, ⟨nofun, fun heager => ?_⟩, rfl⟩
    simp [hleft.sorted heager] at hboth
  case isFalse =>
    have hperm := hlStable.perm.append hrStable.perm
    refine ⟨⟨insertionSort precedes (left.elements ++ right.elements), true⟩, ?_,
      ⟨fun _ => (isStable_insertionSort h).inOrder, fun _ => rfl⟩, insertionSort_idem h⟩
    rw [settle_sortable hl hleft hquick, settle_sortable hr hright hquick,
      insertionSort_append h]
    change some _ = _
    rw [mergeRuns_eq_merge (h.perm hperm) hlStable.inOrder hrStable.inOrder]

/-- There is a result and it satisfies the condition, or there is none, where that may be. -/
def Gives {β : Type} (fails : Prop) (p : β → Prop) : Option β → Prop
  | some result => p result
  | none => fails

/-- A condition goes on through a step that may have no result. -/
theorem Gives.bind {β γ : Type} {fails : Prop} {p : β → Prop} {q : γ → Prop} {o : Option β}
    {f : β → Option γ} (h : Gives fails p o) (hf : ∀ result, p result → Gives fails q (f result)) :
    Gives fails q (o >>= f) := by
  cases o with
  | none => exact h
  | some result => exact hf result h

section

variable {fails : Prop} {p : List (Run α) → Prop}

/-- The runs of a stack from the first to the last. -/
def stacked (stack : List (Run α × Nat)) : List (Run α) := (stack.map Prod.fst).reverse

/-- What joining two neighbours keeps is kept while the stack is collapsed. -/
theorem collapse_induction
    (hjoin : ∀ before left right after, p (before ++ left :: right :: after) →
      Gives fails (fun joined => p (before ++ joined :: after))
        (joinRuns precedes scratch quick left right))
    (depth : Nat) (stack : List (Run α × Nat)) (last : Run α) (rest : List (Run α))
    (h : p (stacked stack ++ last :: rest)) :
    Gives fails (fun result => p (stacked result.2 ++ result.1 :: rest))
      (collapse precedes scratch quick depth last stack) := by
  induction stack generalizing last with
  | nil => exact h
  | cons top stack ih =>
      obtain ⟨left, deep⟩ := top
      rw [collapse]
      -- Either the two last runs are joined, or the stack is deep enough and stays.
      split
      case isTrue =>
        refine Gives.bind (hjoin (stacked stack) left last rest ?_) fun joined hjoined =>
          ih joined hjoined
        simpa [stacked] using h
      case isFalse => exact h

/-- A stack is collapsed to nothing at the root of the tree. -/
theorem collapse_zero {stack : List (Run α × Nat)} {last : Run α}
    {result : Run α × List (Run α × Nat)}
    (h : collapse precedes scratch quick 0 last stack = some result) : result.2 = [] := by
  induction stack generalizing last with
  | nil =>
      obtain rfl := Option.some.inj h
      rfl
  | cons top stack ih =>
      rw [collapse, if_pos (Nat.zero_le _)] at h
      obtain ⟨joined, -, hrest⟩ := Option.bind_eq_some_iff.mp h
      exact ih hrest

/-- What joining two neighbours keeps is kept until there is one run. -/
theorem joinAll_induction
    (hjoin : ∀ before left right after, p (before ++ left :: right :: after) →
      Gives fails (fun joined => p (before ++ joined :: after))
        (joinRuns precedes scratch quick left right))
    (depthAt : Nat → Nat → Nat → Nat) (stack : List (Run α × Nat)) (last : Run α)
    (scanned : Nat) (rest : List (Run α)) (h : p (stacked stack ++ last :: rest)) :
    Gives fails (fun run => p [run])
      (joinAll precedes scratch quick depthAt stack last scanned rest) := by
  induction rest generalizing stack last scanned with
  | nil =>
      rw [joinAll]
      -- At the end the stack is collapsed whole, and one run is left.
      have hlast := collapse_induction hjoin 0 stack last [] h
      cases hcollapse : collapse precedes scratch quick 0 last stack with
      | none => rwa [hcollapse] at hlast
      | some result =>
          rw [hcollapse] at hlast
          change p (stacked result.2 ++ [result.1]) at hlast
          rwa [collapse_zero hcollapse] at hlast
  | cons next rest ih =>
      rw [joinAll]
      refine Gives.bind (collapse_induction hjoin _ stack last (next :: rest) h)
        fun result hresult => ?_
      refine ih _ _ _ ?_
      simpa [stacked] using hresult

end

/-- Two neighbouring runs hold what stands between the elements of the others. -/
theorem contents_neighbours (before : List (Run α)) (left right : Run α) (after : List (Run α)) :
    contents (before ++ left :: right :: after) =
      contents before ++ (left.elements ++ right.elements ++ contents after) := by
  rw [contents_append, contents_cons, contents_cons, List.append_assoc]

/-- If the sort of a run that is left loses no element, the sort by runs does not. -/
theorem perm_sortRuns {elements sorted : List α} (hne : elements ≠ [])
    (hquick : ∀ elements sorted, quick elements = some sorted → sorted.Perm elements)
    (h : sortRuns precedes eager quick elements = some sorted) : sorted.Perm elements := by
  obtain ⟨found, hfound, h⟩ := Option.bind_eq_some_iff.mp h
  have hperm := perm_runs (goodLength_pos hne) hfound
  cases found with
  | nil =>
      obtain rfl := Option.some.inj h
      exact hperm
  | cons first rest =>
      obtain ⟨run, hrun, hsettle⟩ := Option.bind_eq_some_iff.mp h
      -- What is kept while runs are joined is that they hold the elements.
      have hjoined : Gives True (fun run => (contents [run]).Perm elements) (some run) := by
        rw [← hrun]
        refine joinAll_induction (p := fun runs => (contents runs).Perm elements) ?_ _ [] first _
          rest hperm
        intro before left right after hbefore
        cases hjoin : joinRuns precedes (scratchLength elements.length) quick left right with
        | none => trivial
        | some joined =>
            rw [contents_neighbours] at hbefore
            change (contents (before ++ joined :: after)).Perm elements
            rw [contents_append, contents_cons]
            exact (((perm_joinRuns hquick hjoin).append_right _).append_left _).trans hbefore
      have hrun : (contents [run]).Perm elements := hjoined
      rw [contents_cons, contents, List.flatMap_nil, List.append_nil] at hrun
      exact (perm_settle hquick hsettle).trans hrun

/-- If the sort of a run that is left sorts what can be sorted, the sort by runs does. An eager sort
leaves none. -/
theorem sortRuns_sortable {elements : List α} (hne : elements ≠ [])
    (h : Sortable precedes elements)
    (hmoves : ∀ elements sorted, quick elements = some sorted → sorted.Perm elements)
    (hquick : eager = false → ∀ elements, Sortable precedes elements →
      quick elements = some (insertionSort precedes elements)) :
    sortRuns precedes eager quick elements = some (insertionSort precedes elements) := by
  obtain ⟨found, hfound, hvalid, hsort⟩ := runs_sortable eager (goodLength_pos hne) h
  have hperm := perm_runs (goodLength_pos hne) hfound
  rw [sortRuns, hfound]
  cases found with
  | nil => exact absurd hperm.nil_eq hne.symm
  | cons first rest =>
      -- While runs are joined they hold the elements, sorted they would be what all elements are,
      -- and each that counts as sorted is in order. From elements that can be sorted there is a
      -- result, hence `False` for the case that there is none.
      have hjoined := @joinAll_induction _ precedes (scratchLength elements.length) quick False
        (fun runs => (contents runs).Perm elements ∧
          insertionSort precedes (contents runs) = insertionSort precedes elements ∧
          ∀ run ∈ runs, run.Valid precedes eager) ?_ (mergeDepth elements.length) [] first
        first.elements.length rest ⟨hperm, hsort, hvalid⟩
      · cases hrun : joinAll precedes (scratchLength elements.length) quick
            (mergeDepth elements.length) [] first first.elements.length rest with
        | none =>
            rw [hrun] at hjoined
            exact hjoined.elim
        | some run =>
            rw [hrun] at hjoined
            obtain ⟨hperm, hsort, hvalid⟩ := hjoined
            rw [contents_cons, contents, List.flatMap_nil, List.append_nil] at hperm hsort
            have := settle_sortable (h.perm hperm) (hvalid run List.mem_cons_self) hquick
            change (joinAll _ _ _ _ _ _ _ _ >>= _) = _
            rw [hrun, ← hsort, ← this]
            rfl
      · rintro before left right after ⟨hperm, hsort, hvalid⟩
        rw [contents_neighbours] at hperm hsort
        have hwhole := h.perm hperm
        have hrest := hwhole.mono (List.subset_append_right _ _)
        have hboth := hrest.mono (List.subset_append_left _ _)
        -- Parts of elements that can be sorted can be sorted.
        obtain ⟨joined, hjoin, hjoinedValid, hjoinedSort⟩ := joinRuns_sortable
          (scratchLength elements.length) hboth (hvalid left (by simp)) (hvalid right (by simp))
          hquick
        have hjoinedPerm := perm_joinRuns hmoves hjoin
        rw [hjoin]
        refine ⟨?_, ?_, ?_⟩
        · rw [contents_append, contents_cons]
          exact ((hjoinedPerm.append_right _).append_left _).trans hperm
        · rw [contents_append, contents_cons, ← hsort]
          exact insertionSort_append_congr hwhole (.refl _) (hjoinedPerm.append_right _) rfl
            (insertionSort_append_congr hrest hjoinedPerm (.refl _) hjoinedSort rfl)
        · intro run hrun
          rcases List.mem_append.mp hrun with hrun | hrun
          · exact hvalid run (List.mem_append_left _ hrun)
          · rcases List.mem_cons.mp hrun with rfl | hrun
            · exact hjoinedValid
            · exact hvalid run (by simp [hrun])

/-! ### Pivots

Where the pivot is found does not matter, only that it is one of the elements: they are split by a
condition on it, and if those of the one side have to precede those of the other, both sides may be
sorted by themselves (`Sorting.insertionSort_filter`). -/

/-- The median of three places is one of them. -/
theorem median_mem (before : Nat → Nat → Bool) (a b c : Nat) :
    median before a b c = a ∨ median before a b c = b ∨ median before a b c = c := by
  unfold median
  split
  · split <;> simp
  · simp

/-- The median of medians is among the places behind the three that are asked about. -/
theorem medianOfMedians_lt (before : Nat → Nat → Bool) {count a b c bound : Nat}
    (hcount : 0 < count) (ha : a + count ≤ bound) (hb : b + count ≤ bound)
    (hc : c + count ≤ bound) : medianOfMedians before count a b c < bound := by
  fun_induction medianOfMedians before count a b c with
  | case1 count a b c hlong part inner ih =>
      have hinner (start : Nat) (hstart : start + count ≤ bound) : inner start < bound :=
        ih start (by omega) (by omega) (by omega) (by omega)
      rcases median_mem before (inner a) (inner b) (inner c) with h | h | h
      · exact lt_of_eq_of_lt h (hinner a ha)
      · exact lt_of_eq_of_lt h (hinner b hb)
      · exact lt_of_eq_of_lt h (hinner c hc)
  | case2 count a b c hshort =>
      rcases median_mem before a b c with h | h | h <;> omega

/-- There is an element at the place of the pivot. -/
theorem pivotPlace_lt (precedes : α → α → Bool) {elements : List α}
    (h : smallLength < elements.length) :
    pivotPlace precedes elements < elements.length := by
  rw [smallLength] at h
  exact medianOfMedians_lt _ (by omega) (by omega) (by omega) (by omega)

/-- The elements around a pivot are those in front of it, the pivot and those behind it. -/
theorem perm_splitAround (goesLeft : α → Bool) (pivotLeft : Bool) (before : List α) (pivot : α)
    (after : List α) :
    ((splitAround goesLeft pivotLeft before pivot after).1 ++
      (splitAround goesLeft pivotLeft before pivot after).2).Perm (before ++ pivot :: after) := by
  classical
  rw [List.perm_iff_count]
  intro x
  -- An element is counted as often on both sides together as before.
  have hsides (elements : List α) : (elements.filter (goesLeft · == true)).count x +
      (elements.filter (goesLeft · == false)).count x = elements.count x := by
    simp only [beq_true, beq_false]
    rw [← List.count_append]
    exact (List.filter_append_perm goesLeft elements).count_eq x
  have hbefore := hsides before
  have hafter := hsides after
  cases pivotLeft <;>
    simp only [splitAround, List.count_append, List.count_cons, List.count_nil, if_true,
      Bool.false_eq_true, Bool.true_eq_false, if_false] <;> omega

/-- A pivot that is not asked is where it would be put. -/
theorem splitAround_eq (goesLeft : α → Bool) {pivotLeft : Bool} {pivot : α}
    (h : goesLeft pivot = pivotLeft) (before after : List α) :
    splitAround goesLeft pivotLeft before pivot after =
      ((before ++ pivot :: after).filter goesLeft,
        (before ++ pivot :: after).filter (!goesLeft ·)) := by
  subst h
  simp only [splitAround, List.filter_append, List.filter_cons]
  cases goesLeft pivot <;> simp

/-- Elements may be split by any condition that each of the one side has to precede all of the
other side. -/
theorem insertionSort_filter {elements : List α} (h : Sortable precedes elements) {p : α → Bool}
    (hp : ∀ a ∈ elements, ∀ b ∈ elements, p a = false → p b = true → precedes b a = true) :
    insertionSort precedes elements =
      insertionSort precedes (elements.filter p) ++
        insertionSort precedes (elements.filter (!p ·)) := by
  have hsub : elements.filter p ⊆ elements := List.filter_subset_self ..
  have hsub' : elements.filter (!p ·) ⊆ elements := List.filter_subset_self ..
  have hleft := isStable_insertionSort (h.mono hsub)
  have hright := isStable_insertionSort (h.mono hsub')
  refine IsStable.insertionSort_eq h ⟨?_, ?_, fun x hx => ?_⟩
  · exact (hleft.perm.append hright.perm).trans (List.filter_append_perm p elements)
  · refine List.pairwise_append.mpr ⟨hleft.inOrder, hright.inOrder, fun b hb a ha => ?_⟩
    obtain ⟨hb, hpb⟩ := List.mem_filter.mp (mem_insertionSort.mp hb)
    obtain ⟨ha, hpa⟩ := List.mem_filter.mp (mem_insertionSort.mp ha)
    exact h.asymm b hb a ha (hp a ha b hb (by simpa using hpa) hpb)
  · rw [List.filter_append, filter_insertionSort h hsub hx, filter_insertionSort h hsub' hx,
      List.filter_filter, List.filter_filter]
    -- What is tied with `x` is on the side of `x`.
    have hside : ∀ y ∈ elements, tied precedes x y = true → p y = p x := by
      intro y hy htied
      obtain ⟨hxy, hyx⟩ : precedes x y = false ∧ precedes y x = false := by simpa [tied] using htied
      cases hpx : p x <;> cases hpy : p y
      · rfl
      · simp [hp x hx y hy hpx hpy] at hyx
      · simp [hp y hy x hx hpy hpx] at hxy
      · rfl
    have hsame {q : α → Bool} (hq : ∀ y ∈ elements, tied precedes x y = true → q y = true) :
        elements.filter (fun y => tied precedes x y && q y) = elements.filter (tied precedes x) :=
      List.filter_congr fun y hy => by
        cases hxy : tied precedes x y with
        | false => rfl
        | true => rw [hq y hy hxy, Bool.and_self]
    have hnone {q : α → Bool} (hq : ∀ y ∈ elements, tied precedes x y = true → q y = false) :
        elements.filter (fun y => tied precedes x y && q y) = [] :=
      List.filter_eq_nil_iff.mpr fun y hy hboth => by
        obtain ⟨hxy, hqy⟩ := Bool.and_eq_true_iff.mp hboth
        simp [hq y hy hxy] at hqy
    cases hpx : p x with
    | true =>
        rw [hsame fun y hy hxy => (hside y hy hxy).trans hpx,
          hnone fun y hy hxy => by simp [hside y hy hxy, hpx], List.append_nil]
    | false =>
        rw [hnone fun y hy hxy => (hside y hy hxy).trans hpx,
          hsame fun y hy hxy => by simp [hside y hy hxy, hpx], List.nil_append]

/-- In front of a pivot come the elements that have to precede it. -/
theorem insertionSort_less {elements : List α} (h : Sortable precedes elements) {pivot : α}
    (hpivot : pivot ∈ elements) :
    insertionSort precedes elements =
      insertionSort precedes (elements.filter (precedes · pivot)) ++
        insertionSort precedes (elements.filter (!precedes · pivot)) :=
  insertionSort_filter h fun a ha b hb hleft hright => by
    -- An element that has to precede the pivot has to precede all that do not have to.
    by_contra hba
    have := h.trans pivot hpivot a ha b hb hleft (by simpa using hba)
    simp_all

/-- If nothing has to precede a pivot, the elements that are tied with it come first. -/
theorem insertionSort_same {elements : List α} (h : Sortable precedes elements) {pivot : α}
    (hpivot : pivot ∈ elements) (hleast : ∀ x ∈ elements, precedes x pivot = false) :
    insertionSort precedes elements =
      elements.filter (!precedes pivot ·) ++
        insertionSort precedes (elements.filter (!!precedes pivot ·)) := by
  -- Elements that neither precede the pivot nor follow it are tied with one another.
  have hsame : InOrder precedes (elements.filter (!precedes pivot ·)) :=
    List.pairwise_of_forall_mem_list fun a ha b hb => by
      obtain ⟨ha, hpivota⟩ := List.mem_filter.mp ha
      obtain ⟨hb, -⟩ := List.mem_filter.mp hb
      exact h.trans a ha pivot hpivot b hb (by simpa using hpivota) (hleast b hb)
  have hsub : elements.filter (!precedes pivot ·) ⊆ elements := List.filter_subset_self ..
  rw [insertionSort_filter h (p := (!precedes pivot ·)),
    insertionSort_of_inOrder (h.mono hsub) hsame]
  intro a ha b hb ha' hb'
  by_contra hba
  have := h.trans a ha b hb pivot hpivot (by simpa using hba) (by simpa using hb')
  simp_all

/-- Among many elements there is a pivot to split around. -/
theorem quicksort_split (precedes : α → α → Bool) {elements : List α}
    (hlong : smallLength < elements.length) (limit : Nat) (ancestor : Option α) :
    ∃ before pivot after, elements = before ++ pivot :: after ∧
      quicksort precedes (limit + 1) ancestor elements =
        let less := splitAround (precedes · pivot) false before pivot after
        if ancestor.any (!precedes · pivot) || less.1.isEmpty then
          let same := splitAround (!precedes pivot ·) true before pivot after
          (quicksort precedes limit none same.2).map (same.1 ++ ·)
        else
          (quicksort precedes limit (some pivot) less.2).bind fun others =>
            (quicksort precedes limit ancestor less.1).map (· ++ others) := by
  have hdrop := List.drop_eq_getElem_cons (pivotPlace_lt precedes hlong)
  refine ⟨elements.take (pivotPlace precedes elements), _, _,
    (hdrop ▸ List.take_append_drop _ elements).symm, ?_⟩
  rw [quicksort, if_neg (Nat.not_le.mpr hlong)]
  dsimp only
  rw [hdrop]
  dsimp only
  split
  · cases quicksort precedes limit none _ <;> rfl
  · cases quicksort precedes limit (some _) _ with
    | none => rfl
    | some others => cases quicksort precedes limit ancestor _ <;> rfl

/-- A sort around pivots loses no element, or there is no result. -/
theorem perm_quicksort {limit : Nat} {ancestor : Option α} {elements sorted : List α}
    (h : quicksort precedes limit ancestor elements = some sorted) : sorted.Perm elements := by
  induction limit generalizing ancestor elements sorted with
  | zero =>
      rw [quicksort] at h
      split at h
      case isTrue => exact perm_smallSort h
      case isFalse hlong =>
        refine perm_sortRuns ?_ (fun _ _ h => Option.some.inj h ▸ .refl _) h
        rintro rfl
        exact hlong (Nat.zero_le _)
  | succ limit ih =>
      by_cases hshort : elements.length ≤ smallLength
      · rw [quicksort, if_pos hshort] at h
        exact perm_smallSort h
      · obtain ⟨before, pivot, after, rfl, hsplit⟩ :=
          quicksort_split precedes (Nat.lt_of_not_le hshort) limit ancestor
        rw [hsplit] at h
        dsimp only at h
        split at h
        case isTrue =>
          obtain ⟨greater, hgreater, rfl⟩ := Option.map_eq_some_iff.mp h
          exact ((ih hgreater).append_left _).trans (perm_splitAround _ true before pivot after)
        case isFalse =>
          obtain ⟨others, hothers, h⟩ := Option.bind_eq_some_iff.mp h
          obtain ⟨less, hless, rfl⟩ := Option.map_eq_some_iff.mp h
          exact ((ih hless).append (ih hothers)).trans (perm_splitAround _ false before pivot after)

/-- Elements that can be sorted are sorted around pivots, if none of them has to precede the
pivot on their left. -/
theorem quicksort_sortable {whole : List α} (h : Sortable precedes whole) (limit : Nat)
    {ancestor : Option α} {elements : List α} (hsub : elements ⊆ whole)
    (hancestor : ∀ pivot ∈ ancestor, pivot ∈ whole ∧ ∀ x ∈ elements, precedes x pivot = false) :
    quicksort precedes limit ancestor elements = some (insertionSort precedes elements) := by
  induction limit generalizing ancestor elements with
  | zero =>
      rw [quicksort]
      split
      case isTrue => exact smallSort_eq (h.mono hsub)
      case isFalse hlong =>
        refine sortRuns_sortable ?_ (h.mono hsub) (fun _ _ h => Option.some.inj h ▸ .refl _) nofun
        rintro rfl
        exact hlong (Nat.zero_le _)
  | succ limit ih =>
      by_cases hshort : elements.length ≤ smallLength
      · rw [quicksort, if_pos hshort]
        exact smallSort_eq (h.mono hsub)
      · obtain ⟨before, pivot, after, helements, hsplit⟩ :=
          quicksort_split precedes (Nat.lt_of_not_le hshort) limit ancestor
        have hpivot : pivot ∈ elements := by simp [helements]
        have hirrefl := h.irrefl (hsub hpivot)
        have hpart {p : α → Bool} : elements.filter p ⊆ whole :=
          List.Subset.trans (List.filter_subset_self ..) hsub
        -- The pivot is put on its side unasked, but the condition would put it there too, since it
        -- does not have to precede itself.
        have hless : splitAround (precedes · pivot) false before pivot after =
            (elements.filter (precedes · pivot), elements.filter (!precedes · pivot)) :=
          helements ▸ splitAround_eq (precedes · pivot) hirrefl before after
        have hsame : splitAround (!precedes pivot ·) true before pivot after =
            (elements.filter (!precedes pivot ·), elements.filter (!!precedes pivot ·)) :=
          helements ▸ splitAround_eq (!precedes pivot ·) (by simp [hirrefl]) before after
        rw [hsplit, hless, hsame]
        dsimp only
        split
        case isTrue hfirst =>
          have hleast : ∀ x ∈ elements, precedes x pivot = false := by
            rcases Bool.or_eq_true_iff.mp hfirst with hany | hnone
            · -- What is on the right of the last pivot does not have to precede this one either.
              cases ancestor with
              | none => exact absurd hany Bool.false_ne_true
              | some left =>
                  obtain ⟨hleft, hleast⟩ := hancestor left rfl
                  exact fun x hx => h.trans pivot (hsub hpivot) left hleft x (hsub hx)
                    (by simpa using hany) (hleast x hx)
            · simpa using hnone
          have hgreater := @ih none (elements.filter (!!precedes pivot ·)) hpart nofun
          rw [hgreater, insertionSort_same (h.mono hsub) hpivot hleast]
          rfl
        case isFalse =>
          have hothers := @ih (some pivot) (elements.filter (!precedes · pivot)) hpart
            fun other hother => by
              obtain rfl := Option.some.inj hother
              exact ⟨hsub hpivot, fun x hx => by simpa using (List.mem_filter.mp hx).2⟩
          have hlesser := @ih ancestor (elements.filter (precedes · pivot)) hpart
            fun left hleft => ⟨(hancestor left hleft).1, fun x hx =>
              (hancestor left hleft).2 x (List.mem_filter.mp hx).1⟩
          rw [hothers, hlesser, insertionSort_less (h.mono hsub) hpivot]
          rfl

/-- Twenty elements or fewer are sorted by insertion, whatever is compared. -/
theorem sort_of_length_le {elements : List α} (h : elements.length ≤ 20) :
    sort precedes elements = some (insertionSort precedes elements) := by
  rw [sort]
  exact if_pos h

/-- Elements that can be sorted are sorted. -/
theorem sort_sortable {elements : List α} (h : Sortable precedes elements) :
    sort precedes elements = some (insertionSort precedes elements) := by
  rw [sort]
  split
  case isTrue => rfl
  case isFalse hlong =>
    refine sortRuns_sortable ?_ h (fun _ _ h => perm_quicksort h) fun _ run hrun =>
      quicksort_sortable hrun _ (List.Subset.refl _) nofun
    rintro rfl
    exact hlong (Nat.zero_le _)

/-- A sort loses no element, or there is no result. -/
theorem perm_sort {elements sorted : List α} (h : sort precedes elements = some sorted) :
    sorted.Perm elements := by
  rw [sort] at h
  split at h
  case isTrue => exact Option.some.inj h ▸ perm_insertionSort _ _
  case isFalse hlong =>
    refine perm_sortRuns ?_ (fun _ _ h => perm_quicksort h) h
    rintro rfl
    exact hlong (Nat.zero_le _)

end Sorting

end DocQuery
