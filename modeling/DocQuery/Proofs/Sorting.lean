import DocQuery.Eval.Sorting
import Mathlib.Data.List.Basic
import Mathlib.Data.List.Induction
/-!
# DocQuery.Proofs.Sorting

Sorting by insertion. It only moves elements (`Sorting.perm_insertionSort`), and leaves two elements
as they stand unless one has to precede the other: each relation that holds between an element and
those that it has to precede, and between an element and those behind it that do not have to precede
it, holds all along the sorted elements (`Sorting.pairwise_insertionSort`). With each element beside
its place in the source this is the order of elements and, between those of which neither has to
precede the other, of places. The ends of the sorted elements are found without sorting, by passing
over the elements once (`Sorting.head?_insertionSort`, `Sorting.getLast?_insertionSort`).
-/

namespace DocQuery

namespace Sorting

variable {α β : Type} {precedes : α → α → Bool} {x : α}

/-! ### One more element

The new element comes from behind and stops at the first one that it need not precede. What is shown
of it is shown along that walk. -/

theorem perm_insertBack (precedes : α → α → Bool) (x : α) (sorted : List α) :
    (insertBack precedes x sorted).Perm (x :: sorted) := by
  induction sorted with
  | nil => exact .refl _
  | cons y rest ih =>
      rw [insertBack]
      split
      · exact (ih.cons y).trans (.swap x y rest)
      · exact .refl _

theorem insertBack_map (f : α → β) (precedes : β → β → Bool) (x : α) (sorted : List α) :
    insertBack precedes (f x) (sorted.map f) =
      (insertBack (fun a b => precedes (f a) (f b)) x sorted).map f := by
  induction sorted with
  | nil => rfl
  | cons y rest ih =>
      rw [List.map_cons, insertBack, insertBack, ih]
      split <;> rfl

/-- An element that has to precede others gets in front of them, and what it gets behind may stay
in front of it. -/
theorem pairwise_insertBack {R : α → α → Prop} {sorted : List α}
    (hsorted : sorted.Pairwise fun later earlier => R earlier later)
    (hfront : ∀ y ∈ sorted, precedes x y = true → R x y)
    (hkeep : ∀ y ∈ sorted, precedes x y = false → R y x)
    (htrans : ∀ y ∈ sorted, ∀ z ∈ sorted, R z y → precedes x y = false → precedes x z = false) :
    (insertBack precedes x sorted).Pairwise fun later earlier => R earlier later := by
  induction sorted with
  | nil => exact List.pairwise_singleton _ _
  | cons y rest ih =>
      obtain ⟨hy, hrest⟩ := List.pairwise_cons.mp hsorted
      rw [insertBack]
      cases hprecedes : precedes x y with
      | true =>
          rw [if_pos rfl]
          have hinserted := ih hrest (fun z hz => hfront z (List.mem_cons_of_mem y hz))
            (fun z hz => hkeep z (List.mem_cons_of_mem y hz))
            (fun z hz w hw => htrans z (List.mem_cons_of_mem y hz) w (List.mem_cons_of_mem y hw))
          refine List.pairwise_cons.mpr ⟨fun z hz => ?_, hinserted⟩
          rcases List.mem_cons.mp ((perm_insertBack precedes x rest).mem_iff.mp hz) with heq | hz
          · rw [heq]
            exact hfront y List.mem_cons_self hprecedes
          · exact hy z hz
      | false =>
          rw [if_neg Bool.false_ne_true]
          refine List.pairwise_cons.mpr ⟨fun z hz => hkeep z hz ?_, hsorted⟩
          -- What stands in front of `y` does not have to be behind `x`, as `y` does not.
          rcases List.mem_cons.mp hz with heq | hz'
          · rw [heq]
            exact hprecedes
          · exact htrans y List.mem_cons_self z hz (hy z hz') hprecedes

/-- The element at the back stays there just if the new one has to precede it. -/
theorem head?_insertBack (precedes : α → α → Bool) (x : α) (sorted : List α) :
    (insertBack precedes x sorted).head? =
      some (sorted.head?.elim x fun y => if precedes x y then y else x) := by
  cases sorted with
  | nil => rfl
  | cons y rest =>
      rw [insertBack]
      by_cases h : precedes x y = true <;> simp [h]

/-- The element in front stays there unless the new one has to precede it, and then the new one
has to precede all others too. -/
theorem getLast?_insertBack {sorted : List α}
    (h : ∀ y ∈ sorted, ∀ first ∈ sorted.getLast?, precedes x first = true → precedes x y = true) :
    (insertBack precedes x sorted).getLast? =
      some (sorted.getLast?.elim x fun first => if precedes x first then x else first) := by
  induction sorted with
  | nil => rfl
  | cons y rest ih =>
      rw [insertBack]
      cases hrest : rest.getLast? with
      | none =>
          rw [List.getLast?_eq_none_iff] at hrest
          subst hrest
          by_cases hprecedes : precedes x y = true <;> simp [insertBack, hprecedes]
      -- The new element either passes the first one, and then all others, or stays behind it.
      | some first =>
          have hlast : (y :: rest).getLast? = some first := by simp [List.getLast?_cons, hrest]
          rw [hlast] at h ⊢
          have ih := ih fun z hz other hother => by
            rw [hrest] at hother
            exact h z (List.mem_cons_of_mem y hz) other hother
          rw [hrest] at ih
          by_cases hprecedes : precedes x y = true
          · rw [if_pos hprecedes, List.getLast?_cons, ih]
            rfl
          · have hfirst : precedes x first = false := by
              by_contra hne
              exact hprecedes (h y List.mem_cons_self first rfl (by simpa using hne))
            rw [if_neg hprecedes, List.getLast?_cons, hlast]
            simp [hfirst]

/-! ### All elements

Elements are put in one after the other, so the inductions are on the last element. -/

/-- The last element is put in among those in front of it. -/
theorem insertionSort_concat (precedes : α → α → Bool) (elements : List α) (x : α) :
    insertionSort precedes (elements ++ [x]) =
      (insertBack precedes x (insertionSort precedes elements).reverse).reverse := by
  simp only [insertionSort, insertAll, List.foldl_concat, List.reverse_reverse]

theorem perm_insertAll (precedes : α → α → Bool) (sorted elements : List α) :
    (insertAll precedes sorted elements).Perm (sorted ++ elements) := by
  induction elements using List.reverseRecOn with
  | nil =>
      rw [List.append_nil, insertAll, List.foldl_nil, List.reverse_reverse]
  | append_singleton elements x ih =>
      have hpassed := (List.reverse_perm _).symm.trans ih
      rw [insertAll, List.foldl_concat, ← List.append_assoc]
      exact (List.reverse_perm _).trans (((perm_insertBack _ x _).trans (hpassed.cons x)).trans
        (List.perm_append_singleton x _).symm)

/-- Sorting only moves elements. -/
theorem perm_insertionSort (precedes : α → α → Bool) (elements : List α) :
    (insertionSort precedes elements).Perm elements :=
  perm_insertAll precedes [] elements

theorem mem_insertionSort {precedes : α → α → Bool} {elements : List α} :
    x ∈ insertionSort precedes elements ↔ x ∈ elements :=
  (perm_insertionSort precedes elements).mem_iff

theorem insertionSort_map (f : α → β) (precedes : β → β → Bool) (elements : List α) :
    insertionSort precedes (elements.map f) =
      (insertionSort (fun a b => precedes (f a) (f b)) elements).map f := by
  induction elements using List.reverseRecOn with
  | nil => rfl
  | append_singleton elements x ih =>
      rw [List.map_append, List.map_singleton, insertionSort_concat, insertionSort_concat, ih,
        ← List.map_reverse, insertBack_map, List.map_reverse]

/-- Which of two of these elements has to precede the other is settled as in an order. -/
structure Sortable (precedes : α → α → Bool) (elements : List α) : Prop where
  asymm : ∀ a ∈ elements, ∀ b ∈ elements, precedes a b = true → precedes b a = false
  /-- If none has to precede the one in front of it, the last does not have to precede the first. -/
  trans : ∀ a ∈ elements, ∀ b ∈ elements, ∀ d ∈ elements,
    precedes b a = false → precedes d b = false → precedes d a = false

theorem Sortable.mono {elements elements' : List α} (h : Sortable precedes elements')
    (hsub : elements ⊆ elements') : Sortable precedes elements where
  asymm a ha b hb := h.asymm a (hsub ha) b (hsub hb)
  trans a ha b hb d hd := h.trans a (hsub ha) b (hsub hb) d (hsub hd)

/-- Sorted elements stand to each other in a relation in which an element stands to those that it
has to precede, and to those behind it that do not have to precede it. -/
theorem pairwise_insertionSort {R : α → α → Prop} {elements : List α}
    (h : Sortable precedes elements)
    (hR : ∀ a ∈ elements, ∀ b ∈ elements, R a b → precedes b a = false)
    (hfront : ∀ a ∈ elements, ∀ b ∈ elements, precedes a b = true → R a b)
    (hkeep : elements.Pairwise fun a b => precedes b a = false → R a b) :
    (insertionSort precedes elements).Pairwise R := by
  induction elements using List.reverseRecOn with
  | nil => exact .nil
  | append_singleton elements x ih =>
      have hold {y : α} (hy : y ∈ elements) : y ∈ elements ++ [x] := List.mem_append_left _ hy
      have hnew : x ∈ elements ++ [x] := List.mem_append_right _ List.mem_cons_self
      obtain ⟨hkept, -, hbehind⟩ := List.pairwise_append.mp hkeep
      have hsorted := ih (h.mono fun _ => hold) (fun a ha b hb => hR a (hold ha) b (hold hb))
        (fun a ha b hb => hfront a (hold ha) b (hold hb)) hkept
      have hmem {y : α} (hy : y ∈ (insertionSort precedes elements).reverse) : y ∈ elements :=
        mem_insertionSort.mp (List.mem_reverse.mp hy)
      rw [insertionSort_concat, List.pairwise_reverse]
      -- Put in from behind, it stands behind those that it need not precede, and these are in
      -- order.
      apply pairwise_insertBack
      · exact List.pairwise_reverse.mpr hsorted
      · exact fun y hy => hfront x hnew y (hold (hmem hy))
      · exact fun y hy => hbehind y (hmem hy) x List.mem_cons_self
      · intro y hy z hz hzy
        have hz := hold (hmem hz)
        have hy := hold (hmem hy)
        exact h.trans z hz y hy x hnew (hR z hz y hy hzy)

/-! ### The ends -/

/-- The last of two elements: the first of them only if the second has to precede it. -/
def later (precedes : α → α → Bool) (best x : α) : α := if precedes x best then best else x

/-- The first of two elements: the second of them only if it has to precede the first. -/
def earlier (precedes : α → α → Bool) (best x : α) : α := if precedes x best then x else best

/-- The last of the sorted elements is found by passing over them once. -/
theorem getLast?_insertionSort (precedes : α → α → Bool) (first : α) (rest : List α) :
    (insertionSort precedes (first :: rest)).getLast? =
      some (rest.foldl (later precedes) first) := by
  induction rest using List.reverseRecOn with
  | nil => rfl
  | append_singleton rest x ih =>
      rw [← List.cons_append, insertionSort_concat, List.getLast?_reverse, head?_insertBack,
        List.head?_reverse, ih, List.foldl_concat]
      rfl

/-- So is the first one, if the elements can be sorted. -/
theorem head?_insertionSort {first : α} {rest : List α} (h : Sortable precedes (first :: rest)) :
    (insertionSort precedes (first :: rest)).head? =
      some (rest.foldl (earlier precedes) first) := by
  induction rest using List.reverseRecOn with
  | nil => rfl
  | append_singleton rest x ih =>
      rw [← List.cons_append] at h ⊢
      have hold {y : α} (hy : y ∈ first :: rest) : y ∈ (first :: rest) ++ [x] :=
        List.mem_append_left _ hy
      have hold' := h.mono fun _ => hold
      -- The elements in front are sorted, so the first of them is not preceded by another one.
      have hsorted :
          (insertionSort precedes (first :: rest)).Pairwise fun a b => precedes b a = false :=
        pairwise_insertionSort hold' (fun a _ b _ h => h) hold'.asymm
          (List.pairwise_of_forall fun _ _ h => h)
      obtain ⟨others, hothers⟩ := List.head?_eq_some_iff.mp (ih hold')
      rw [insertionSort_concat, List.head?_reverse, hothers, getLast?_insertBack]
      · simp [earlier]
      · intro y hy least hleast hbefore
        obtain rfl : _ = least := by simpa using hleast
        by_contra hbehind
        rcases List.mem_cons.mp (List.mem_reverse.mp hy) with heq | hy'
        · rw [heq] at hbehind
          exact hbehind hbefore
        · -- What is in front of `y` is no more to be preceded by `x` than `y` is.
          rw [hothers] at hsorted
          have hy : y ∈ first :: rest := mem_insertionSort.mp (hothers ▸ List.mem_cons_of_mem _ hy')
          have hleast := mem_insertionSort.mp (hothers ▸ List.mem_cons_self)
          have := h.trans _ (hold hleast) y (hold hy) x (by simp)
            ((List.pairwise_cons.mp hsorted).1 y hy') (by simpa using hbehind)
          rw [hbefore] at this
          cases this

end Sorting

end DocQuery
