import DocQuery.Proofs.Sorting
import Mathlib.Data.List.Infix
/-!
# DocQuery.Proofs.StableSort

What is in order and what a merge does. Elements that can be sorted have one stable order
(`Sorting.IsStable.unique`): no element has to precede one in front of it, and those that are tied
with an element come as they stand in the source. Insertion gives it, so `insertionSort` stands for
it in what follows, and each other step is shown to be one that it does not see:
merging sorted parts sorts the whole (`Sorting.insertionSort_append`), in either direction, and the
two merges of a short stretch meet (`Sorting.mergeHalves_eq`).

Without an order none of this holds, but a merge still only moves elements.
-/

namespace DocQuery

namespace Sorting

variable {α β : Type} {precedes : α → α → Bool}

/-! ### The order that is asked for -/

/-- No element has to precede one in front of it. -/
def InOrder (precedes : α → α → Bool) (elements : List α) : Prop :=
  elements.Pairwise fun a b => precedes b a = false

/-- Neither of two elements has to precede the other one. -/
def tied (precedes : α → α → Bool) (x y : α) : Bool := !precedes x y && !precedes y x

/-- These are the elements of a source in order, those that are tied as they stand there. -/
structure IsStable (precedes : α → α → Bool) (source elements : List α) : Prop where
  perm : elements.Perm source
  inOrder : InOrder precedes elements
  ties : ∀ x ∈ source, elements.filter (tied precedes x) = source.filter (tied precedes x)

/-- Elements that can be sorted do not have to precede themselves. -/
theorem Sortable.irrefl {elements : List α} (h : Sortable precedes elements) {x : α}
    (hx : x ∈ elements) : precedes x x = false := by
  by_contra hne
  have := h.asymm x hx x hx (by simpa using hne)
  simp_all

theorem Sortable.tied_self {elements : List α} (h : Sortable precedes elements) {x : α}
    (hx : x ∈ elements) : tied precedes x x = true := by
  simp [tied, h.irrefl hx]

/-- An element that is tied with another one stands to all elements as that one does. -/
theorem Sortable.precedes_of_tied {elements : List α} (h : Sortable precedes elements) {x y z : α}
    (hx : x ∈ elements) (hy : y ∈ elements) (hz : z ∈ elements) (hxy : tied precedes x y = true)
    (hyz : precedes x z = true) : precedes y z = true := by
  obtain ⟨hxy, hyx⟩ : precedes x y = false ∧ precedes y x = false := by simpa [tied] using hxy
  by_contra hne
  have := h.trans z hz y hy x hx (by simpa using hne) hxy
  simp_all

/-- Of elements that are tied with the same one, none has to precede another. -/
theorem Sortable.not_precedes_of_tied {elements : List α} (h : Sortable precedes elements)
    {x a b : α} (hx : x ∈ elements) (ha : a ∈ elements) (hb : b ∈ elements)
    (hxa : tied precedes x a = true) (hxb : tied precedes x b = true) :
    precedes b a = false := by
  by_contra hba
  have hbx : tied precedes b x = true := by simpa [tied, Bool.and_comm] using hxb
  have := h.precedes_of_tied hb hx ha hbx (by simpa using hba)
  simp [tied, this] at hxa

/-- There is one stable order. -/
theorem IsStable.unique {source elements elements' : List α} (h : Sortable precedes source)
    (hfirst : IsStable precedes source elements) (hsecond : IsStable precedes source elements') :
    elements = elements' := by
  have hperm := hfirst.perm.trans hsecond.perm.symm
  have hsort : Sortable precedes elements := h.mono hfirst.perm.subset
  have hties : ∀ x ∈ elements,
      elements.filter (tied precedes x) = elements'.filter (tied precedes x) := fun x hx =>
    (hfirst.ties x (hfirst.perm.subset hx)).trans (hsecond.ties x (hfirst.perm.subset hx)).symm
  have hone := hfirst.inOrder
  have hother := hsecond.inOrder
  -- The induction takes the first element off both lists, so it is on what is left of the three
  -- facts and not on the source.
  clear hfirst hsecond h
  induction elements generalizing elements' with
  | nil => exact hperm.nil_eq
  | cons a rest ih =>
      cases elements' with
      | nil => exact absurd hperm.symm.nil_eq (List.cons_ne_nil a rest).symm
      | cons b rest' =>
          obtain ⟨hone, hrest⟩ := List.pairwise_cons.mp hone
          obtain ⟨hother, hrest'⟩ := List.pairwise_cons.mp hother
          have ha : a ∈ a :: rest := List.mem_cons_self
          have hb : b ∈ a :: rest := hperm.mem_iff.mpr List.mem_cons_self
          -- Both come first, so they are tied, and the first of those tied with `a` are equal.
          have hba : precedes b a = false := by
            rcases List.mem_cons.mp hb with rfl | hb'
            · exact hsort.irrefl ha
            · exact hone b hb'
          have hab : precedes a b = false := by
            rcases List.mem_cons.mp (hperm.mem_iff.mp ha) with rfl | ha'
            · exact hsort.irrefl ha
            · exact hother a ha'
          have hfirst := hties a ha
          rw [List.filter_cons_of_pos (hsort.tied_self ha),
            List.filter_cons_of_pos (by simp [tied, hab, hba])] at hfirst
          obtain ⟨rfl, -⟩ := List.cons.inj hfirst
          rw [ih (hperm.cons_inv) (hsort.mono (List.subset_cons_self a rest)) _ hrest hrest']
          intro x hx
          have := hties x (List.mem_cons_of_mem a hx)
          by_cases htied : tied precedes x a = true
          · rw [List.filter_cons_of_pos htied, List.filter_cons_of_pos htied] at this
            exact (List.cons.inj this).2
          · rwa [List.filter_cons_of_neg htied, List.filter_cons_of_neg htied] at this

/-- An element that is put in goes behind those that it is tied with. -/
theorem filter_insertBack {p : α → Bool} {x : α} {sorted : List α}
    (h : p x = true → ∀ y ∈ sorted, p y = true → precedes x y = false) :
    (insertBack precedes x sorted).filter p = (x :: sorted).filter p := by
  induction sorted with
  | nil => rfl
  | cons y rest ih =>
      rw [insertBack]
      -- An element is moved past `y` only if it has to precede it, and then the two are not both
      -- among those looked at.
      cases hxy : precedes x y with
      | false => rfl
      | true =>
          have hrest := ih fun hx z hz => h hx z (List.mem_cons_of_mem y hz)
          rw [if_pos rfl, List.filter_cons, hrest]
          by_cases hx : p x = true
          · have hy : ¬ p y = true := fun hy => by
              simp [h hx y List.mem_cons_self hy] at hxy
            simp [hx, hy]
          · simp [List.filter_cons, hx]

/-- Insertion leaves elements that are tied with the same one as they stand, those of a part too. -/
theorem filter_insertionSort {elements part : List α} (h : Sortable precedes elements)
    (hpart : part ⊆ elements) {x : α} (hx : x ∈ elements) :
    (insertionSort precedes part).filter (tied precedes x) = part.filter (tied precedes x) := by
  induction part using List.reverseRecOn with
  | nil => rfl
  | append_singleton part y ih =>
      obtain ⟨hpart, hy⟩ := List.append_subset.mp hpart
      -- The last element is put in behind the others, from the back.
      rw [insertionSort_concat, List.filter_reverse, filter_insertBack]
      · rw [List.filter_cons, List.filter_reverse, ih hpart, List.filter_append,
          List.filter_singleton]
        by_cases hxy : tied precedes x y = true <;> simp [hxy]
      · intro hxy z hz hxz
        have hz : z ∈ elements := hpart (mem_insertionSort.mp (List.mem_reverse.mp hz))
        exact h.not_precedes_of_tied hx hz (hy List.mem_cons_self) hxz hxy

/-- Insertion gives a stable order. -/
theorem isStable_insertionSort {elements : List α} (h : Sortable precedes elements) :
    IsStable precedes elements (insertionSort precedes elements) where
  perm := perm_insertionSort precedes elements
  inOrder := pairwise_insertionSort h (fun _ _ _ _ h => h) h.asymm
    (List.pairwise_of_forall fun _ _ h => h)
  ties _ hx := filter_insertionSort h (List.Subset.refl _) hx

/-- Whatever is in a stable order is what insertion gives. -/
theorem IsStable.insertionSort_eq {source elements : List α} (h : Sortable precedes source)
    (hstable : IsStable precedes source elements) : insertionSort precedes source = elements :=
  (isStable_insertionSort h).unique h hstable

theorem Sortable.of_map {f : α → β} {precedes : β → β → Bool} {elements : List α}
    (h : Sortable precedes (elements.map f)) :
    Sortable (fun a b => precedes (f a) (f b)) elements where
  asymm _ ha _ hb := h.asymm _ (List.mem_map_of_mem ha) _ (List.mem_map_of_mem hb)
  trans _ ha _ hb _ hd := h.trans _ (List.mem_map_of_mem ha) _ (List.mem_map_of_mem hb) _
    (List.mem_map_of_mem hd)

theorem Sortable.perm {elements elements' : List α} (h : Sortable precedes elements)
    (hperm : elements'.Perm elements) : Sortable precedes elements' :=
  h.mono hperm.subset

/-- What is in order is left as it is. -/
theorem insertionSort_of_inOrder {elements : List α} (h : Sortable precedes elements)
    (horder : InOrder precedes elements) : insertionSort precedes elements = elements :=
  IsStable.insertionSort_eq h ⟨.refl _, horder, fun _ _ => rfl⟩

theorem insertionSort_idem {elements : List α} (h : Sortable precedes elements) :
    insertionSort precedes (insertionSort precedes elements) = insertionSort precedes elements :=
  insertionSort_of_inOrder (h.perm (perm_insertionSort _ _)) (isStable_insertionSort h).inOrder

/-- Elements may be put in among others that are in order. -/
theorem insertAll_insertionSort (elements more : List α) :
    insertAll precedes (insertionSort precedes elements) more =
      insertionSort precedes (elements ++ more) := by
  simp only [insertionSort, insertAll, List.reverse_reverse, List.foldl_append, List.reverse_nil]

/-! ### Merges

What a merge keeps without an order: its elements, and each of its sides as it stands. With an order
it gives the stable one of both sides together, and then it does not matter at which end it starts.
-/

/-- A merge loses no element, whatever it compares. -/
theorem perm_merge (precedes : α → α → Bool) (left right : List α) :
    (merge precedes left right).Perm (left ++ right) := by
  fun_induction merge precedes left right with
  | case1 right => exact .refl _
  | case2 left => rw [List.append_nil]
  | case3 a left b right h ih => exact (ih.cons b).trans List.perm_middle.symm
  | case4 a left b right h ih => exact ih.cons a

theorem perm_mergeBack (precedes : α → α → Bool) (left right : List α) :
    (mergeBack precedes left right).Perm (left ++ right) := by
  refine ((List.reverse_perm _).trans (perm_merge _ _ _)).trans ?_
  rw [← List.reverse_append]
  exact List.reverse_perm _

theorem perm_mergeRuns (precedes : α → α → Bool) (left right : List α) :
    (mergeRuns precedes left right).Perm (left ++ right) := by
  rw [mergeRuns]
  split
  · exact perm_merge _ _ _
  · exact perm_mergeBack _ _ _

/-- A merge moves elements by what is compared of them and by nothing else. -/
theorem merge_map (f : α → β) (precedes : β → β → Bool) (left right : List α) :
    merge precedes (left.map f) (right.map f) =
      (merge (fun a b => precedes (f a) (f b)) left right).map f := by
  fun_induction merge (fun a b => precedes (f a) (f b)) left right with
  | case1 right => rw [List.map_nil, merge]
  | case2 left => cases left <;> simp [merge]
  | case3 a left b right h ih => rw [List.map_cons, List.map_cons, merge, if_pos h, ← List.map_cons,
      ih, List.map_cons]
  | case4 a left b right h ih => rw [List.map_cons, List.map_cons, merge, if_neg h, ← List.map_cons,
      ih, List.map_cons]

/-- Each side of a merge stays as it stands. -/
theorem filter_merge_left {p : α → Bool} {left right : List α} (hleft : ∀ a ∈ left, p a = true)
    (hright : ∀ b ∈ right, p b = false) : (merge precedes left right).filter p = left := by
  fun_induction merge precedes left right with
  | case1 right => exact List.filter_eq_nil_iff.mpr fun b hb => by simp [hright b hb]
  | case2 left => exact List.filter_eq_self.mpr hleft
  | case3 a left b right h ih =>
      rw [List.filter_cons_of_neg (by simp [hright b List.mem_cons_self])]
      exact ih hleft fun b hb => hright b (List.mem_cons_of_mem _ hb)
  | case4 a left b right h ih =>
      rw [List.filter_cons_of_pos (hleft a List.mem_cons_self)]
      exact congrArg (a :: ·) (ih (fun a ha => hleft a (List.mem_cons_of_mem _ ha)) hright)

/-- The right side stays as it stands too. -/
theorem filter_merge_right {p : α → Bool} {left right : List α} (hleft : ∀ a ∈ left, p a = false)
    (hright : ∀ b ∈ right, p b = true) : (merge precedes left right).filter p = right := by
  fun_induction merge precedes left right with
  | case1 right => exact List.filter_eq_self.mpr hright
  | case2 left => exact List.filter_eq_nil_iff.mpr fun a ha => by simp [hleft a ha]
  | case3 a left b right h ih =>
      rw [List.filter_cons_of_pos (hright b List.mem_cons_self)]
      exact congrArg (b :: ·) (ih hleft fun b hb => hright b (List.mem_cons_of_mem _ hb))
  | case4 a left b right h ih =>
      rw [List.filter_cons_of_neg (by simp [hleft a List.mem_cons_self])]
      exact ih (fun a ha => hleft a (List.mem_cons_of_mem _ ha)) hright

/-- What has to precede the first of elements in order has to precede all of them. -/
theorem precedes_of_inOrder {elements : List α} (h : Sortable precedes elements) {a b : α}
    {rest : List α} (hb : b ∈ elements) (hsub : a :: rest ⊆ elements)
    (horder : InOrder precedes (a :: rest)) (hba : precedes b a = true) :
    ∀ y ∈ a :: rest, precedes b y = true := by
  intro y hy
  rcases List.mem_cons.mp hy with rfl | hy'
  · exact hba
  · by_contra hne
    have := h.trans a (hsub List.mem_cons_self) y (hsub hy) b hb
      ((List.pairwise_cons.mp horder).1 y hy') (by simpa using hne)
    simp_all

/-- A merge of what is in order is in order. The element that is taken is the first of its side, and
has to precede the first of the other side or may stand in front of it; either carries over to all
behind that. -/
theorem inOrder_merge {left right : List α} (h : Sortable precedes (left ++ right))
    (hleft : InOrder precedes left) (hright : InOrder precedes right) :
    InOrder precedes (merge precedes left right) := by
  fun_induction merge precedes left right with
  | case1 right => exact hright
  | case2 left => exact hleft
  | case3 a left b right hba ih =>
      have hrest := List.pairwise_cons.mp hright
      have hsub := (List.Sublist.refl (a :: left)).append (List.sublist_cons_self b right)
      refine List.pairwise_cons.mpr ⟨fun y hy => ?_, ih (h.mono hsub.subset) hleft hrest.2⟩
      rcases List.mem_append.mp ((perm_merge _ _ _).mem_iff.mp hy) with hy | hy
      · have hb : b ∈ a :: left ++ b :: right := by simp
        exact h.asymm b hb y (List.mem_append_left _ hy)
          (precedes_of_inOrder h hb (List.subset_append_left _ _) hleft hba y hy)
      · exact hrest.1 y hy
  | case4 a left b right hba ih =>
      have hrest := List.pairwise_cons.mp hleft
      refine List.pairwise_cons.mpr ⟨fun y hy => ?_,
        ih (h.mono (List.subset_cons_self a (left ++ b :: right))) hrest.2 hright⟩
      rcases List.mem_append.mp ((perm_merge _ _ _).mem_iff.mp hy) with hy | hy
      · exact hrest.1 y hy
      · -- `a` comes before `b` and with it before everything behind `b`.
        rcases List.mem_cons.mp hy with rfl | hy'
        · simpa using hba
        · exact h.trans a (by simp) b (by simp) y (by simp [hy']) (by simpa using hba)
            ((List.pairwise_cons.mp hright).1 y hy')

/-- Elements of which none has to precede another one stay as they stand in a merge. -/
theorem filter_merge {p : α → Bool} {left right : List α} (h : Sortable precedes (left ++ right))
    (hleft : InOrder precedes left)
    (hp : ∀ a ∈ left, ∀ b ∈ right, p a = true → p b = true → precedes b a = false) :
    (merge precedes left right).filter p = (left ++ right).filter p := by
  fun_induction merge precedes left right with
  | case1 right => rfl
  | case2 left => rw [List.append_nil]
  | case3 a left b right hba ih =>
      have hsub := (List.Sublist.refl (a :: left)).append (List.sublist_cons_self b right)
      have hrest := ih (h.mono hsub.subset) hleft
        fun c hc d hd => hp c hc d (List.mem_cons_of_mem b hd)
      -- `b` is taken first, so it has to precede all on its left and is tied with none of them.
      have hnone : p b = true → (a :: left).filter p = [] := fun hb =>
        List.filter_eq_nil_iff.mpr fun c hc hpc => by
          have hall := precedes_of_inOrder h (by simp) (List.subset_append_left _ _) hleft hba c hc
          simp [hp c hc b List.mem_cons_self hpc hb] at hall
      rw [List.filter_append] at hrest
      rw [List.filter_cons, hrest, List.filter_append, List.filter_cons (x := b)]
      by_cases hb : p b = true
      · simp [hb, hnone hb]
      · simp [hb]
  | case4 a left b right hba ih =>
      have hrest := ih (h.mono (List.subset_cons_self a (left ++ b :: right)))
        (List.pairwise_cons.mp hleft).2 fun c hc => hp c (List.mem_cons_of_mem a hc)
      rw [List.filter_cons, hrest, List.cons_append, List.filter_cons]

/-- A merge of what is in order is the stable order of both sides. -/
theorem isStable_merge {left right : List α} (h : Sortable precedes (left ++ right))
    (hleft : InOrder precedes left) (hright : InOrder precedes right) :
    IsStable precedes (left ++ right) (merge precedes left right) where
  perm := perm_merge _ _ _
  inOrder := inOrder_merge h hleft hright
  ties _ hx := filter_merge h hleft fun _ ha _ hb =>
    h.not_precedes_of_tied hx (List.mem_append_left _ ha) (List.mem_append_right _ hb)

/-- Parts may be sorted by themselves and then merged. -/
theorem insertionSort_append {left right : List α} (h : Sortable precedes (left ++ right)) :
    insertionSort precedes (left ++ right) =
      merge precedes (insertionSort precedes left) (insertionSort precedes right) := by
  have hl := List.subset_append_left left right
  have hr := List.subset_append_right left right
  have hleft := isStable_insertionSort (h.mono hl)
  have hright := isStable_insertionSort (h.mono hr)
  have hperm := hleft.perm.append hright.perm
  have hmerge := isStable_merge (h.perm hperm) hleft.inOrder hright.inOrder
  refine IsStable.insertionSort_eq h ⟨hmerge.perm.trans hperm, hmerge.inOrder, fun x hx => ?_⟩
  rw [hmerge.ties x (hperm.mem_iff.mpr hx), List.filter_append, List.filter_append,
    filter_insertionSort h hl hx, filter_insertionSort h hr hx]

/-- Parts may be replaced by others that have the same order. -/
theorem insertionSort_append_congr {left right left' right' : List α}
    (h : Sortable precedes (left ++ right)) (hleft : left'.Perm left) (hright : right'.Perm right)
    (hl : insertionSort precedes left' = insertionSort precedes left)
    (hr : insertionSort precedes right' = insertionSort precedes right) :
    insertionSort precedes (left' ++ right') = insertionSort precedes (left ++ right) := by
  rw [insertionSort_append h, insertionSort_append (h.perm (hleft.append hright)), hl, hr]

/-- A merge of what is in order gives what insertion gives. -/
theorem merge_eq_insertionSort {left right : List α} (h : Sortable precedes (left ++ right))
    (hleft : InOrder precedes left) (hright : InOrder precedes right) :
    merge precedes left right = insertionSort precedes (left ++ right) :=
  (IsStable.insertionSort_eq h (isStable_merge h hleft hright)).symm

/-- The other way round, elements that can be sorted can be sorted too. -/
theorem Sortable.flip {elements : List α} (h : Sortable precedes elements) :
    Sortable (fun a b => precedes b a) elements where
  asymm a ha b hb hba := h.asymm b hb a ha hba
  trans a ha b hb d hd hab hbd := h.trans d hd b hb a ha hbd hab

theorem tied_flip (x y : α) : tied (fun a b => precedes b a) x y = tied precedes x y :=
  Bool.and_comm _ _

theorem inOrder_reverse {elements : List α} :
    InOrder (fun a b => precedes b a) elements.reverse ↔ InOrder precedes elements :=
  List.pairwise_reverse

/-- A merge gives the same from either end. -/
theorem mergeBack_eq_merge {left right : List α} (h : Sortable precedes (left ++ right))
    (hleft : InOrder precedes left) (hright : InOrder precedes right) :
    mergeBack precedes left right = merge precedes left right := by
  have hperm : (right.reverse ++ left.reverse).Perm (left ++ right) := by
    rw [← List.reverse_append]
    exact List.reverse_perm _
  -- From the back it is a merge for the opposite order, with the sides exchanged. Read from the
  -- back again, what it gives is stable for the order itself, and there is only one such list.
  have hflip := (h.perm hperm).flip
  have hmerge := isStable_merge hflip (inOrder_reverse.mpr hright) (inOrder_reverse.mpr hleft)
  rw [merge_eq_insertionSort h hleft hright]
  refine (IsStable.insertionSort_eq h ⟨perm_mergeBack _ _ _, ?_, fun x hx => ?_⟩).symm
  · exact List.pairwise_reverse.mpr hmerge.inOrder
  · have hties := hmerge.ties x (hperm.mem_iff.mpr hx)
    rw [funext (tied_flip x)] at hties
    rw [mergeBack, List.filter_reverse, hties, ← List.filter_reverse, List.reverse_append,
      List.reverse_reverse, List.reverse_reverse]

/-- At which side a merge starts makes no difference then. -/
theorem mergeRuns_eq_merge {left right : List α} (h : Sortable precedes (left ++ right))
    (hleft : InOrder precedes left) (hright : InOrder precedes right) :
    mergeRuns precedes left right = merge precedes left right := by
  rw [mergeRuns]
  split
  · rfl
  · exact mergeBack_eq_merge h hleft hright

/-! ### Merges that meet

The two merges of a short stretch are cut where they should meet. Elements are marked with the half
they come from, so that it can be counted how many of each half are taken in front and at the back.
If the count is right, every element is taken once; and if there is an order both merges are the
same, and the count is right. -/

section

variable {p : α → Bool}

/-- In front of a place stand the first of those that satisfy a condition. -/
theorem filter_take (elements : List α) (n : Nat) :
    (elements.take n).filter p = (elements.filter p).take ((elements.take n).countP p) := by
  conv_rhs => rw [← List.take_append_drop n elements, List.filter_append]
  rw [List.take_append_drop, List.countP_eq_length_filter, List.take_left]

/-- Behind a place stand the others of those that satisfy a condition. -/
theorem filter_drop (elements : List α) (n : Nat) :
    (elements.drop n).filter p = (elements.filter p).drop ((elements.take n).countP p) := by
  conv_rhs => rw [← List.take_append_drop n elements, List.filter_append]
  rw [List.take_append_drop, List.countP_eq_length_filter, List.drop_left]

end

variable {left right : List α}

theorem map_snd_marked (mark : Bool) (elements : List α) :
    (elements.map (Prod.mk mark)).map Prod.snd = elements := by
  rw [List.map_map]
  exact List.map_id _

/-- All elements of two halves, each half as it stands. -/
structure Interleaves (lefts rights merged : List (Bool × α)) : Prop where
  lefts : merged.filter Prod.fst = lefts
  rights : merged.filter (!Prod.fst ·) = rights

theorem interleaves_merge (precedes : Bool × α → Bool × α → Bool) (left right : List α) :
    Interleaves (left.map (Prod.mk true)) (right.map (Prod.mk false))
      (merge precedes (left.map (Prod.mk true)) (right.map (Prod.mk false))) :=
  ⟨filter_merge_left (by simp) (by simp), filter_merge_right (by simp) (by simp)⟩

/-- From the back too, each half stays as it stands. -/
theorem interleaves_mergeBack (precedes : Bool × α → Bool × α → Bool) (left right : List α) :
    Interleaves (left.map (Prod.mk true)) (right.map (Prod.mk false))
      (mergeBack precedes (left.map (Prod.mk true)) (right.map (Prod.mk false))) := by
  constructor
  · rw [mergeBack, List.filter_reverse, filter_merge_right (by simp) (by simp),
      List.reverse_reverse]
  · rw [mergeBack, List.filter_reverse, filter_merge_left (by simp) (by simp),
      List.reverse_reverse]

/-- No element is lost if both halves are there. -/
theorem Interleaves.perm {lefts rights merged : List (Bool × α)}
    (h : Interleaves lefts rights merged) : merged.Perm (lefts ++ rights) := by
  rw [← h.lefts, ← h.rights]
  exact (List.filter_append_perm Prod.fst merged).symm

theorem Interleaves.countP {lefts rights merged : List (Bool × α)}
    (h : Interleaves lefts rights merged) : merged.countP Prod.fst = lefts.length := by
  rw [List.countP_eq_length_filter, h.lefts]

theorem Interleaves.length_eq {lefts rights merged : List (Bool × α)}
    (h : Interleaves lefts rights merged) : merged.length = lefts.length + rights.length := by
  rw [h.perm.length_eq, List.length_append]

theorem take_take_drop (elements : List α) (i n : Nat) :
    elements.take i ++ ((elements.drop i).take n ++ elements.drop (i + n)) = elements := by
  rw [← List.drop_drop, List.take_append_drop, List.take_append_drop]

/-- Both halves are there if the ends hold the first and the last elements of each, and what stands
between the ends is what is left of each. -/
theorem Interleaves.of_ends {lefts rights front between back : List (Bool × α)} {i j m n : Nat}
    (hfrontLeft : front.filter Prod.fst = lefts.take i)
    (hfrontRight : front.filter (!Prod.fst ·) = rights.take j)
    (hleft : between.filter Prod.fst = (lefts.drop i).take m)
    (hright : between.filter (!Prod.fst ·) = (rights.drop j).take n)
    (hbackLeft : back.filter Prod.fst = lefts.drop (i + m))
    (hbackRight : back.filter (!Prod.fst ·) = rights.drop (j + n)) :
    Interleaves lefts rights (front ++ between ++ back) := by
  constructor
  · rw [List.filter_append, List.filter_append, hfrontLeft, hleft, hbackLeft, List.append_assoc,
      take_take_drop]
  · rw [List.filter_append, List.filter_append, hfrontRight, hright, hbackRight, List.append_assoc,
      take_take_drop]

theorem countP_not (elements : List (Bool × α)) :
    elements.countP (!Prod.fst ·) = elements.length - elements.countP Prod.fst := by
  have := List.length_eq_countP_add_countP Prod.fst (l := elements)
  simp only [Bool.not_eq_true, Bool.decide_eq_false] at this
  omega

/-- If as many elements are of the left half as it has, each element is taken once. -/
theorem interleaves_joinEnds {lefts rights merged merged' : List (Bool × α)}
    (h : Interleaves lefts rights merged) (h' : Interleaves lefts rights merged')
    (hle : lefts.length ≤ rights.length) (hlt : rights.length ≤ lefts.length + 1)
    (hcount : (joinEnds lefts rights (merged.take lefts.length)
      (merged'.drop rights.length)).countP Prod.fst = lefts.length) :
    Interleaves lefts rights
      (joinEnds lefts rights (merged.take lefts.length) (merged'.drop rights.length)) := by
  have hlefts : ∀ x ∈ lefts, x.1 = true := fun x hx => by
    rw [← h.lefts] at hx
    exact (List.mem_filter.mp hx).2
  have hrights : ∀ x ∈ rights, x.1 = false := fun x hx => by
    rw [← h.rights] at hx
    simpa using (List.mem_filter.mp hx).2
  -- The front holds the first elements of both halves, the back the last ones. How many of each
  -- these are follows from how many there are of the left half.
  have hfrontLeft := h.lefts ▸ filter_take (p := Prod.fst) merged lefts.length
  have hfrontRight := h.rights ▸ filter_take (p := (!Prod.fst ·)) merged lefts.length
  have hbackLeft := h'.lefts ▸ filter_drop (p := Prod.fst) merged' rights.length
  have hbackRight := h'.rights ▸ filter_drop (p := (!Prod.fst ·)) merged' rights.length
  rw [countP_not] at hfrontRight hbackRight
  have hsum : (merged'.take rights.length).countP Prod.fst +
      (merged'.drop rights.length).countP Prod.fst = lefts.length := by
    rw [← List.countP_append, List.take_append_drop, h'.countP]
  have hfrontLength : (merged.take lefts.length).length = lefts.length := by
    rw [List.length_take, h.length_eq]
    omega
  have hbackLength : (merged'.take rights.length).length = rights.length := by
    rw [List.length_take, h'.length_eq]
    omega
  rw [hfrontLength] at hfrontRight
  rw [hbackLength] at hbackRight
  rw [joinEnds, hfrontLength] at hcount ⊢
  generalize merged.take lefts.length = front at *
  generalize merged'.drop rights.length = back at *
  generalize hi : front.countP Prod.fst = i at *
  generalize (merged'.take rights.length).countP Prod.fst = k at *
  split at hcount
  case isTrue hless =>
    -- The element between the ends is one of the left half.
    have hbetween : ∀ x ∈ (lefts.drop i).take (rights.length - lefts.length), x.1 = true :=
      fun x hx => hlefts x (List.mem_of_mem_drop (List.mem_of_mem_take hx))
    rw [if_pos hless]
    rw [List.countP_append, List.countP_append, hi, List.countP_eq_length.mpr hbetween,
      List.length_take, List.length_drop] at hcount
    have hk : k = i + (rights.length - lefts.length) := by omega
    have hrest : rights.length - k = lefts.length - i + 0 := by omega
    refine .of_ends hfrontLeft hfrontRight (List.filter_eq_self.mpr hbetween) ?_ (hk ▸ hbackLeft)
      (hrest ▸ hbackRight)
    exact List.filter_eq_nil_iff.mpr fun x hx => by simp [hbetween x hx]
  case isFalse hless =>
    have hbetween : ∀ x ∈ (rights.drop (lefts.length - i)).take (rights.length - lefts.length),
        x.1 = false :=
      fun x hx => hrights x (List.mem_of_mem_drop (List.mem_of_mem_take hx))
    rw [if_neg hless]
    rw [List.countP_append, List.countP_append, hi,
      List.countP_eq_zero.mpr fun x hx => by simp [hbetween x hx]] at hcount
    have hk : k = i + 0 := by omega
    have hrest : rights.length - k = lefts.length - i + (rights.length - lefts.length) := by omega
    refine .of_ends hfrontLeft hfrontRight ?_
      (List.filter_eq_self.mpr fun x hx => by simp [hbetween x hx]) (hk ▸ hbackLeft)
      (hrest ▸ hbackRight)
    exact List.filter_eq_nil_iff.mpr fun x hx => by simp [hbetween x hx]

/-- Where the two merges give the same, the ends meet. -/
theorem joinEnds_self {lefts rights merged : List (Bool × α)}
    (h : Interleaves lefts rights merged)
    (hle : lefts.length ≤ rights.length) (hlt : rights.length ≤ lefts.length + 1) :
    joinEnds lefts rights (merged.take lefts.length) (merged.drop rights.length) = merged := by
  have hlength := h.length_eq
  have hcount := h.countP
  have hfrontLength : (merged.take lefts.length).length = lefts.length := by
    rw [List.length_take, hlength]
    omega
  have hsplit := List.take_append_drop lefts.length merged
  rw [joinEnds, hfrontLength]
  -- Halves of one length leave nothing between the ends, others exactly one element.
  rcases Nat.eq_or_lt_of_le hle with heq | hlt'
  · rw [heq, Nat.sub_self, List.take_zero, List.append_nil, List.take_append_drop]
  · have hodd : rights.length = lefts.length + 1 := by omega
    cases hmiddle : merged.drop lefts.length with
    | nil =>
        have := List.drop_eq_nil_iff.mp hmiddle
        omega
    | cons x back =>
        have hback : merged.drop rights.length = back := by
          rw [hodd, ← List.drop_drop, hmiddle]
          rfl
        rw [hmiddle] at hsplit
        have hleft := h.lefts ▸ filter_drop (p := Prod.fst) merged lefts.length
        have hright := h.rights ▸ filter_drop (p := (!Prod.fst ·)) merged lefts.length
        rw [hmiddle] at hleft hright
        rw [countP_not, hfrontLength] at hright
        rw [← hsplit, List.countP_append, List.countP_cons] at hcount
        -- Which half the element between the ends is of settles which one has one left.
        rw [hback, hodd, Nat.add_sub_cancel_left, ← hleft, ← hright, List.append_assoc]
        conv_rhs => rw [← hsplit]
        by_cases hx : x.1 = true
        · rw [if_pos hx] at hcount
          rw [if_pos (by omega), List.filter_cons_of_pos hx]
          rfl
        · rw [if_neg hx] at hcount
          rw [if_neg (by omega), List.filter_cons_of_pos (by simpa using hx)]
          rfl

/-- The elements of both halves are taken once, or there is no result. -/
theorem perm_mergeHalves {left right merged : List α}
    (hle : left.length ≤ right.length) (hlt : right.length ≤ left.length + 1)
    (h : mergeHalves precedes left right = some merged) : merged.Perm (left ++ right) := by
  have hjoined := interleaves_joinEnds (interleaves_merge (fun a b => precedes a.2 b.2) left right)
    (interleaves_mergeBack (fun a b => precedes a.2 b.2) left right) (by simpa using hle)
    (by simpa using hlt)
  rw [List.length_map, List.length_map] at hjoined
  rw [mergeHalves] at h
  split at h
  case isTrue hcount =>
    obtain rfl := Option.some.inj h
    have hperm := (hjoined hcount).perm.map Prod.snd
    rwa [List.map_append, map_snd_marked, map_snd_marked] at hperm
  case isFalse => cases h

/-- Halves in order are merged as any lists in order are. -/
theorem mergeHalves_eq {left right : List α} (h : Sortable precedes (left ++ right))
    (hleft : InOrder precedes left) (hright : InOrder precedes right)
    (hle : left.length ≤ right.length) (hlt : right.length ≤ left.length + 1) :
    mergeHalves precedes left right = some (insertionSort precedes (left ++ right)) := by
  have hmarked := interleaves_merge (fun a b => precedes a.2 b.2) left right
  -- The marks do not change what is compared.
  have hsort : Sortable (fun a b : Bool × α => precedes a.2 b.2)
      (left.map (Prod.mk true) ++ right.map (Prod.mk false)) := by
    apply Sortable.of_map
    rwa [List.map_append, map_snd_marked, map_snd_marked]
  have hback := mergeBack_eq_merge hsort (List.pairwise_map.mpr hleft)
    (List.pairwise_map.mpr hright)
  have hjoined := joinEnds_self hmarked (by simpa using hle) (by simpa using hlt)
  rw [List.length_map, List.length_map] at hjoined
  rw [mergeHalves, hback, hjoined, if_pos]
  · rw [← merge_map Prod.snd precedes, map_snd_marked, map_snd_marked,
      merge_eq_insertionSort h hleft hright]
  · rw [hmarked.countP, List.length_map]

/-! ### Short stretches

Two elements, four elements, half a stretch, a stretch: each is made from the one before, so for
each there are two facts, that it loses no element and that it gives the order where there is one.
-/

/-- Two elements are sorted by one comparison. -/
theorem insertionSort_two (precedes : α → α → Bool) (a b : α) :
    insertionSort precedes [a, b] = [(sortTwo precedes a b).1, (sortTwo precedes a b).2] := by
  change (insertBack precedes b [a]).reverse = _
  rw [insertBack, sortTwo]
  split <;> rfl

theorem perm_sortTwo (precedes : α → α → Bool) (a b : α) :
    [(sortTwo precedes a b).1, (sortTwo precedes a b).2].Perm [a, b] := by
  rw [← insertionSort_two]
  exact perm_insertionSort _ _

/-- Two pairs made into one list. -/
def joinPairs (precedes : α → α → Bool) (a b c d : α) : List α :=
  let (least, left, right, greatest) :=
    match precedes c a, precedes d b with
    | false, false => (a, b, c, d)
    | false, true => (a, c, d, b)
    | true, false => (c, a, b, d)
    | true, true => (c, a, d, b)
  let (low, high) := sortTwo precedes left right
  [least, low, high, greatest]

theorem sortFour_eq_joinPairs (precedes : α → α → Bool) (v w x y : α) :
    sortFour precedes v w x y =
      joinPairs precedes (sortTwo precedes v w).1 (sortTwo precedes v w).2
        (sortTwo precedes x y).1 (sortTwo precedes x y).2 := rfl

/-- Two pairs made into one list keep their four elements. -/
theorem perm_joinPairs (precedes : α → α → Bool) (a b c d : α) :
    (joinPairs precedes a b c d).Perm [a, b, c, d] := by
  have hmiddle (least left right greatest : α) :
      [least, (sortTwo precedes left right).1, (sortTwo precedes left right).2, greatest].Perm
        [least, left, right, greatest] :=
    ((perm_sortTwo precedes left right).append_right [greatest]).cons least
  rw [joinPairs]
  cases precedes c a with
  | false =>
      cases precedes d b with
      | false => exact hmiddle a b c d
      | true => exact (hmiddle a c d b).trans ((@List.perm_append_comm _ [c, d] [b]).cons a)
  | true =>
      cases precedes d b with
      | false =>
          exact (hmiddle c a b d).trans ((@List.perm_append_comm _ [c] [a, b]).append_right [d])
      | true =>
          exact ((hmiddle c a d b).trans (.swap a c [d, b])).trans
            ((@List.perm_append_comm _ [c, d] [b]).cons a)

/-- Two pairs in order are made into one list as a merge would do it. -/
theorem joinPairs_eq_merge {a b c d : α} (h : Sortable precedes [a, b, c, d])
    (hab : precedes b a = false) (hcd : precedes d c = false) :
    joinPairs precedes a b c d = merge precedes [a, b] [c, d] := by
  cases hca : precedes c a with
  | false =>
      cases hdb : precedes d b with
      | false => cases hcb : precedes c b <;> simp [joinPairs, merge, sortTwo, hca, hdb, hcb]
      | true =>
          -- The third comparison of the merge is not made here; its outcome follows from those that
          -- are.
          have hcb : precedes c b = true := by
            by_contra hcb
            have := h.trans b (by simp) c (by simp) d (by simp) (by simpa using hcb) hcd
            simp_all
          simp [joinPairs, merge, sortTwo, hca, hdb, hcb, hcd]
  | true =>
      cases hdb : precedes d b with
      | false =>
          have hda := h.trans a (by simp) b (by simp) d (by simp) hab hdb
          simp [joinPairs, merge, sortTwo, hca, hdb, hda, hab]
      | true => cases hda : precedes d a <;> simp [joinPairs, merge, sortTwo, hca, hdb, hda]

theorem perm_sortFour (precedes : α → α → Bool) (v w x y : α) :
    (sortFour precedes v w x y).Perm [v, w, x, y] :=
  (perm_joinPairs _ _ _ _ _).trans ((perm_sortTwo _ v w).append (perm_sortTwo _ x y))

/-- Four elements that can be sorted are sorted by five comparisons. -/
theorem sortFour_eq {v w x y : α} (h : Sortable precedes [v, w, x, y]) :
    sortFour precedes v w x y = insertionSort precedes [v, w, x, y] := by
  have hv : Sortable precedes [v, w] := h.mono (by simp)
  have hx : Sortable precedes [x, y] := h.mono (by simp)
  have hvw := (isStable_insertionSort hv).inOrder
  have hxy := (isStable_insertionSort hx).inOrder
  rw [insertionSort_two] at hvw hxy
  rw [show [v, w, x, y] = [v, w] ++ [x, y] from rfl, insertionSort_append h, insertionSort_two,
    insertionSort_two, sortFour_eq_joinPairs, joinPairs_eq_merge]
  · exact h.perm ((perm_sortTwo _ v w).append (perm_sortTwo _ x y))
  · exact (List.pairwise_cons.mp hvw).1 _ List.mem_cons_self
  · exact (List.pairwise_cons.mp hxy).1 _ List.mem_cons_self

/-- Half of a stretch loses no element. -/
theorem perm_sortHalf (precedes : α → α → Bool) (four : Bool) (elements : List α) :
    (sortHalf precedes four elements).Perm elements := by
  unfold sortHalf
  split
  case h_1 v w x y rest =>
    split
    · exact (perm_insertAll _ _ _).trans ((perm_sortFour _ v w x y).append_right rest)
    · exact perm_insertionSort _ _
  case h_2 => exact perm_insertionSort _ _

/-- Half of a stretch is sorted as by insertion, whether its first four elements are sorted by
themselves or not. -/
theorem sortHalf_eq {elements : List α} (h : Sortable precedes elements) (four : Bool) :
    sortHalf precedes four elements = insertionSort precedes elements := by
  unfold sortHalf
  split
  case h_1 v w x y rest =>
    split
    · rw [sortFour_eq (h.mono (List.subset_append_left [v, w, x, y] rest)),
        insertAll_insertionSort]
      rfl
    · rfl
  case h_2 => rfl

/-- The two halves of a short stretch, each by itself in order. -/
theorem length_halves (precedes : α → α → Bool) (four : Bool) (elements : List α) :
    let left := sortHalf precedes four (elements.take (elements.length / 2))
    let right := sortHalf precedes four (elements.drop (elements.length / 2))
    left.length ≤ right.length ∧ right.length ≤ left.length + 1 := by
  intro left right
  have hleft : left.length = _ := (perm_sortHalf precedes four _).length_eq
  have hright : right.length = _ := (perm_sortHalf precedes four _).length_eq
  rw [List.length_take] at hleft
  rw [List.length_drop] at hright
  omega

/-- A short stretch loses no element, or there is no result. -/
theorem perm_smallSort {elements sorted : List α} (h : smallSort precedes elements = some sorted) :
    sorted.Perm elements := by
  obtain ⟨hle, hlt⟩ := length_halves precedes (decide (8 ≤ elements.length)) elements
  have hhalves := (perm_sortHalf precedes (decide (8 ≤ elements.length))
    (elements.take (elements.length / 2))).append (perm_sortHalf precedes
      (decide (8 ≤ elements.length)) (elements.drop (elements.length / 2)))
  rw [List.take_append_drop] at hhalves
  exact (perm_mergeHalves hle hlt h).trans hhalves

/-- A short stretch whose elements can be sorted is sorted. -/
theorem smallSort_eq {elements : List α} (h : Sortable precedes elements) :
    smallSort precedes elements = some (insertionSort precedes elements) := by
  obtain ⟨hle, hlt⟩ := length_halves precedes (decide (8 ≤ elements.length)) elements
  rw [← List.take_append_drop (elements.length / 2) elements] at h
  have hleft := h.mono (List.subset_append_left _ _)
  have hright := h.mono (List.subset_append_right _ _)
  have hstable := isStable_insertionSort hleft
  have hstable' := isStable_insertionSort hright
  rw [sortHalf_eq hleft, sortHalf_eq hright] at hle hlt
  -- The halves are in order, so they are merged as parts that have been sorted are.
  rw [smallSort, sortHalf_eq hleft, sortHalf_eq hright,
    mergeHalves_eq (h.perm (hstable.perm.append hstable'.perm)) hstable.inOrder hstable'.inOrder
      hle hlt,
    insertionSort_append_congr h hstable.perm hstable'.perm (insertionSort_idem hleft)
      (insertionSort_idem hright), List.take_append_drop]

end Sorting

end DocQuery
