import DocQuery.Proofs.Comparisons
import DocQuery.Proofs.SortedRuns
import DocQuery.Proofs.ValueOrder
import Mathlib.Data.List.Perm.Basic
/-!
# DocQuery.Proofs.SortedElements

Sorts of expressions. A sort evaluates its order first, then element by element the element and its
key, and the first error is all that it yields (`Results.withKeys_append`); with keys the elements
are moved to where they stand in the order of keys and places (`Results.exists_placed`).
`sort_in_order` puts this together for the instructions of a sort.

The function that finds the least value keeps the first of those that are the same, the one that
finds the greatest the last, and these are the ends of the sorted values (`least_greatest_sorted`).
-/

namespace DocQuery

/-! ### Elements with their keys

Element and key are evaluated together, one pair after the other. So there are two cases for a whole
sequence: a first pair that fails, or a list of pairs. -/

namespace Results

variable {key : Value → Except EvalError Value}

/-- An element with its key. -/
def keyed (key : Value → Except EvalError Value) (element : Except EvalError Value) :
    Except EvalError (Value × Value) := do
  let value ← element
  return (← key value, value)

theorem keyed_eq_ok {element : Except EvalError Value} {pair : Value × Value} :
    keyed key element = .ok pair ↔ element = .ok pair.2 ∧ key pair.2 = .ok pair.1 := by
  obtain ⟨k, v⟩ := pair
  cases element with
  | error e => exact iff_of_false nofun (by simp)
  | ok value =>
      change (key value >>= fun k => .ok (k, value)) = .ok (k, v) ↔ _
      simp only [bind_eq_ok, Except.ok.injEq, Prod.mk.injEq]
      constructor
      · intro h
        obtain ⟨k, hk, rfl, rfl⟩ := h
        exact ⟨rfl, hk⟩
      · intro h
        obtain ⟨rfl, hk⟩ := h
        exact ⟨k, hk, rfl, rfl⟩

theorem withKeys_cons (element : Except EvalError Value) (rest : Results) :
    withKeys key (element :: rest) =
      keyed key element >>= fun pair => (withKeys key rest).map (pair :: ·) := by
  rw [withKeys, keyed]
  cases element with
  | error e => rfl
  | ok value =>
      change (key value >>= _) = ((key value >>= _) >>= _)
      cases key value with
      | error e => rfl
      | ok k => cases withKeys key rest <;> rfl

/-- The first element that fails, or whose key does, is all that there is of a sort. -/
theorem withKeys_append {before : Results} {element : Except EvalError Value} {error : EvalError}
    (hbefore : ∀ passed ∈ before, ∃ pair, keyed key passed = .ok pair)
    (h : keyed key element = .error error) (rest : Results) :
    withKeys key (before ++ element :: rest) = .error error := by
  induction before with
  | nil =>
      rw [List.nil_append, withKeys_cons, h]
      rfl
  | cons passed before ih =>
      obtain ⟨hpassed, hbefore⟩ := List.forall_mem_cons.mp hbefore
      obtain ⟨pair, hpair⟩ := hpassed
      rw [List.cons_append, withKeys_cons, hpair, ih hbefore]
      rfl

/-- If no element fails and no key does, the elements come with their keys. -/
theorem withKeys_eq_ok {results : Results} {pairs : List (Value × Value)}
    (h : results.map (keyed key) = pairs.map .ok) : withKeys key results = .ok pairs := by
  induction results generalizing pairs with
  | nil =>
      obtain rfl : pairs = [] := by simpa using h.symm
      rfl
  | cons element rest ih =>
      cases pairs with
      | nil => cases h
      | cons pair pairs =>
          obtain ⟨hpair, hrest⟩ := List.cons.inj h
          rw [withKeys_cons, hpair, ih hrest]
          rfl

theorem sortBy_eq {c : Collation} {descending : Bool} {results : Results}
    {pairs : List (Value × Value)} (h : results.map (keyed key) = pairs.map .ok) :
    results.sortBy c descending key = sortPairs c descending pairs := by
  rw [sortBy, withKeys_eq_ok h]
  rfl

theorem eq_ofValues {results : Results} {pairs : List (Value × Value)}
    (h : results.map (keyed key) = pairs.map .ok) : results = ofValues (pairs.map Prod.snd) := by
  induction results generalizing pairs with
  | nil =>
      obtain rfl : pairs = [] := by simpa using h.symm
      rfl
  | cons element rest ih =>
      cases pairs with
      | nil => cases h
      | cons pair pairs =>
          obtain ⟨hpair, hrest⟩ := List.cons.inj h
          rw [(keyed_eq_ok.mp hpair).1, ih hrest]
          rfl

/-- Either all elements have keys, or there is a first one that fails or whose key does. -/
theorem keyed_or_fails (key : Value → Except EvalError Value) (results : Results) :
    (∃ before element later error, results = before ++ element :: later ∧
      (∀ passed ∈ before, ∃ pair, keyed key passed = .ok pair) ∧
      keyed key element = .error error) ∨
    ∃ pairs : List (Value × Value), results.map (keyed key) = pairs.map .ok := by
  induction results with
  | nil => exact .inr ⟨[], rfl⟩
  | cons element rest ih =>
      cases helement : keyed key element with
      | error error => exact .inl ⟨[], element, rest, error, rfl, nofun, helement⟩
      | ok pair =>
          rcases ih with ⟨before, failing, later, error, hrest, hbefore, hfails⟩ | ⟨pairs, hpairs⟩
          · refine .inl ⟨element :: before, failing, later, error, ?_, ?_, hfails⟩
            · rw [hrest, List.cons_append]
            · exact List.forall_mem_cons.mpr ⟨⟨pair, helement⟩, hbefore⟩
          · exact .inr ⟨pair :: pairs, by rw [List.map_cons, helement, hpairs, List.map_cons]⟩

end Results

/-! ### The order of keys

Going down exchanges the sides of the comparison, and leaves equal keys equal. Places therefore
settle ties in the same way in both directions. -/

namespace Value

/-- Comparing is transitive on these values, which makes it a total preorder on them: of all values
it holds that the comparison turns around with its two sides and that a value is the same as
itself. -/
def PreorderedOn (c : Collation) (values : List Value) : Prop :=
  ∀ a ∈ values, ∀ b ∈ values, ∀ d ∈ values,
    (compare c a b).isLE → (compare c b d).isLE → (compare c a d).isLE

end Value

namespace Results

variable (c : Collation) (descending : Bool) (a b : Value)

/-- The order of two keys in one direction. -/
def ordering : Ordering := if descending then Value.compare c b a else Value.compare c a b

theorem ordering_swap : ordering c descending b a = (ordering c descending a b).swap := by
  cases descending <;> exact Value.compare_swap _ _

theorem ordering_eq_eq : ordering c descending a b = .eq ↔ Value.compare c a b = .eq := by
  cases descending with
  | false => rfl
  | true =>
      change Value.compare c b a = .eq ↔ _
      rw [Value.compare_swap, Ordering.swap_eq_eq]

theorem precedes_eq : precedes c descending a b = (ordering c descending a b).isLT := by
  cases descending with
  | false => rfl
  | true =>
      change (Value.compare c a b).isGT = (Value.compare c b a).isLT
      rw [Value.compare_swap a b, Ordering.isLT_swap]

/-- Upwards, a key has to precede those that are greater. -/
theorem precedes_upwards : precedes c false b a = (Value.compare c a b).isGT := by
  rw [precedes_eq, ordering_swap, Ordering.isLT_swap]
  rfl

theorem precedes_eq_false :
    precedes c descending b a = false ↔ (ordering c descending a b).isLE := by
  rw [precedes_eq, ordering_swap]
  cases ordering c descending a b <;> simp

variable {c}

/-- Keys that comparing orders can be sorted in either direction. -/
theorem sortable {α : Type} {keyOf : α → Value} {elements : List α}
    (h : Value.PreorderedOn c (elements.map keyOf)) :
    Sorting.Sortable (fun a b => precedes c descending (keyOf a) (keyOf b)) elements where
  asymm a ha b hb hab := by
    rw [precedes_eq, Ordering.isLT_iff_eq_lt] at hab
    rw [precedes_eq_false, hab]
    rfl
  trans a ha b hb d hd hab hbd := by
    rw [precedes_eq_false] at hab hbd ⊢
    have hkey {x : α} (hx : x ∈ elements) : keyOf x ∈ elements.map keyOf := List.mem_map_of_mem hx
    cases descending with
    | false => exact h _ (hkey ha) _ (hkey hb) _ (hkey hd) hab hbd
    | true => exact h _ (hkey hd) _ (hkey hb) _ (hkey ha) hbd hab

variable (c) in
/-- In a sort an element with a key and a place in the source stands in front of another one: its
key comes before the key of the other one, or the keys are the same and its place comes first. -/
def StandsBefore (a b : (Value × Value) × Nat) : Prop :=
  ordering c descending a.1.1 b.1.1 = .lt ∨ Value.compare c a.1.1 b.1.1 = .eq ∧ a.2 < b.2

/-- What is moved is moved from places in the source. -/
theorem exists_placed {pairs sorted : List (Value × Value)} (h : sorted.Perm pairs) :
    ∃ placed : List ((Value × Value) × Nat), placed.Perm pairs.zipIdx ∧
      sorted = placed.map Prod.fst := by
  have hplaces : List.Forall₂ (fun pair placed => pair = Prod.fst placed) pairs pairs.zipIdx := by
    rw [← List.forall₂_map_right_iff (f := Prod.fst), List.zipIdx_map_fst]
    exact List.forall₂_refl _
  obtain ⟨placed, hplaced, hperm⟩ := List.perm_comp_forall₂ h hplaces
  refine ⟨placed, hperm, ?_⟩
  rwa [← List.forall₂_map_right_iff (f := Prod.fst), List.forall₂_eq_eq_eq] at hplaced

/-- Insertion moves elements to where they stand in the order of keys and places. -/
theorem exists_placed_inOrder {pairs : List (Value × Value)}
    (h : Value.PreorderedOn c (pairs.map Prod.fst)) :
    ∃ placed : List ((Value × Value) × Nat), placed.Perm pairs.zipIdx ∧
      Sorting.insertionSort (fun a b => precedes c descending a.1 b.1) pairs =
        placed.map Prod.fst ∧
      placed.Pairwise (StandsBefore c descending) := by
  -- The elements are sorted together with their places, which the comparison does not look at.
  have hfst : pairs.zipIdx.map Prod.fst = pairs := List.zipIdx_map_fst 0 pairs
  refine ⟨Sorting.insertionSort (fun a b => precedes c descending a.1.1 b.1.1) pairs.zipIdx,
    Sorting.perm_insertionSort _ _, ?_, ?_⟩
  · conv_lhs => rw [← hfst]
    exact Sorting.insertionSort_map Prod.fst _ pairs.zipIdx
  · have hkeys : pairs.map Prod.fst = pairs.zipIdx.map fun placed => placed.1.1 := by
      conv_lhs => rw [← hfst]
      exact List.map_map
    rw [hkeys] at h
    have hplaces : pairs.zipIdx.Pairwise fun a b => a.2 < b.2 := by
      rw [← List.pairwise_map, List.zipIdx_map_snd]
      exact List.pairwise_lt_range'
    apply Sorting.pairwise_insertionSort (sortable descending h)
    · intro a _ b _ hab
      rw [precedes_eq_false]
      rcases hab with hab | ⟨hab, -⟩
      · rw [hab]
        rfl
      · rw [(ordering_eq_eq c descending a.1.1 b.1.1).mpr hab]
        rfl
    · intro a _ b _ hab
      rw [precedes_eq, Ordering.isLT_iff_eq_lt] at hab
      exact .inl hab
    · refine hplaces.imp fun {a b} hplace hle => ?_
      rw [precedes_eq_false, Ordering.isLE_iff_eq_lt_or_eq_eq] at hle
      rcases hle with hlt | heq
      · exact .inl hlt
      · exact .inr ⟨(ordering_eq_eq c descending a.1.1 b.1.1).mp heq, hplace⟩

/-- A sort moves elements, and to where they stand in the order of keys and places if the keys have
an order. Without one, of more than twenty elements, it may come to nothing. -/
theorem sort_placed (pairs : List (Value × Value)) :
    let sorted := Sorting.sort (fun a b => precedes c descending a.1 b.1) pairs
    (∃ placed : List ((Value × Value) × Nat), placed.Perm pairs.zipIdx ∧
      sorted = some (placed.map Prod.fst) ∧
      (Value.PreorderedOn c (pairs.map Prod.fst) →
        placed.Pairwise (StandsBefore c descending))) ∨
    ¬ Value.PreorderedOn c (pairs.map Prod.fst) ∧ 20 < pairs.length ∧ sorted = none := by
  intro sorted
  -- With an order every sort agrees with insertion; without one only short sorts are sure to come
  -- to a result.
  by_cases hordered : Value.PreorderedOn c (pairs.map Prod.fst)
  · obtain ⟨placed, hperm, hplaced, hpairwise⟩ := exists_placed_inOrder descending hordered
    refine .inl ⟨placed, hperm, ?_, fun _ => hpairwise⟩
    rw [← hplaced]
    exact Sorting.sort_sortable (sortable descending hordered)
  · cases hsorted : sorted with
    | none =>
        refine .inr ⟨hordered, ?_, rfl⟩
        by_contra hfew
        have hinserted : sorted = some _ := Sorting.sort_of_length_le (Nat.le_of_not_lt hfew)
        simp [hsorted] at hinserted
    | some moved =>
        obtain ⟨placed, hperm, hplaced⟩ := exists_placed (Sorting.perm_sort hsorted)
        exact .inl ⟨placed, hperm, congrArg some hplaced, fun h => absurd h hordered⟩

end Results

/-! ### Sorts in expressions -/

namespace Node

/-- A sort is a descending one if it has an order whose value, read as an integer, is -1. -/
def direction (order : Option Node) (ctx : Context) : Except EvalError Bool :=
  match order with
  | some order => (order.flatten.evalScalar ctx).map fun value => value.toInt64? = some (-1)
  | none => .ok false

/-- An element of a sort with its key, which is evaluated with the element at hand. -/
def keyOf (key : Node) (ctx : Context) (value : Value) : Except EvalError Value :=
  key.flatten.evalScalar (ctx.withCurrent value)

theorem evalValues_sort (source key : Node) (order : Option Node) (ctx : Context) :
    (sort source key order).flatten.evalValues ctx = .ofExcept (do
      let descending ← direction order ctx
      (source.flatten.evalValues ctx).sortBy ctx.collation descending (keyOf key ctx)) := by
  have hkey : keyOf key ctx = fun value => key.scalar (ctx.withCurrent value) :=
    funext fun value => flatten_scalar key _
  rw [flatten_values, values_of_not_isScalar rfl, flatten_values, hkey]
  cases order with
  | none => rfl
  | some order =>
      rw [direction, flatten_scalar]
      rfl

/-- The element at hand. -/
def atHand : Node := path .empty .current []

theorem keyOf_atHand (ctx : Context) : atHand.keyOf ctx = .ok := by
  funext value
  rw [keyOf, flatten_scalar, scalar_of_isScalar rfl]
  rfl

/-- A sequence of values, sorted by themselves. -/
theorem evalValues_sort_atHand {source : Node} {ctx : Context} {values : List Value}
    (h : source.flatten.evalValues ctx = .ofValues values) :
    (sort source atHand none).flatten.evalValues ctx =
      .ofExcept (Results.sortPairs ctx.collation false
        (values.map fun value => (value, value))) := by
  have hkeyed : (Results.ofValues values).map (Results.keyed .ok) =
      (values.map fun value => (value, value)).map .ok := by
    rw [Results.ofValues, List.map_map, List.map_map]
    rfl
  rw [evalValues_sort, h, keyOf_atHand]
  exact congrArg Results.ofExcept (Results.sortBy_eq hkeyed)

end Node

/-- What `SORT` yields, evaluated by its instructions. If its order fails, this is the only error.
Otherwise, if an element fails or its key does, the first such error is the only one. Otherwise the
elements are moved to other places, and if comparing orders their keys, it is to where they stand in
the order of the keys, in the direction asked for, and of their places in the source where the keys
are the same. Only if comparing does not order the keys of more than twenty elements, the sort may
find this out and end the program. -/
theorem sort_in_order (source key : Node) (order : Option Node) (ctx : Context) :
    let sorted := (Node.sort source key order).flatten.evalValues ctx
    let elements := source.flatten.evalValues ctx
    let keyed := Results.keyed (key.keyOf ctx)
    (∃ error, Node.direction order ctx = .error error ∧ sorted = .failed error) ∨
    ∃ descending, Node.direction order ctx = .ok descending ∧
      ((∃ before element later error, elements = before ++ element :: later ∧
        (∀ passed ∈ before, ∃ pair, keyed passed = .ok pair) ∧ keyed element = .error error ∧
        sorted = .failed error) ∨
      ∃ pairs : List (Value × Value), elements.map keyed = pairs.map .ok ∧
        elements = .ofValues (pairs.map Prod.snd) ∧
        ((∃ placed : List ((Value × Value) × Nat), placed.Perm pairs.zipIdx ∧
          sorted = .ofValues (placed.map fun item => item.1.2) ∧
          (Value.PreorderedOn ctx.collation (pairs.map Prod.fst) →
            placed.Pairwise (Results.StandsBefore ctx.collation descending))) ∨
        ¬ Value.PreorderedOn ctx.collation (pairs.map Prod.fst) ∧ 20 < pairs.length ∧
          sorted = .failed .noTotalOrder)) := by
  intro sorted elements keyed
  have hsorted : sorted = _ := Node.evalValues_sort source key order ctx
  cases hdirection : Node.direction order ctx with
  | error error =>
      rw [hdirection] at hsorted
      exact .inl ⟨error, rfl, hsorted⟩
  | ok descending =>
      replace hsorted :
          sorted = .ofExcept (elements.sortBy ctx.collation descending (key.keyOf ctx)) := by
        rw [hsorted, hdirection]
        rfl
      refine .inr ⟨descending, rfl, ?_⟩
      -- The first element or key that fails ends the sort before anything is moved.
      rcases Results.keyed_or_fails (key.keyOf ctx) elements with
        ⟨before, element, later, error, helements, hbefore, hfails⟩ | ⟨pairs, hpairs⟩
      · refine .inl ⟨before, element, later, error, helements, hbefore, hfails, ?_⟩
        rw [hsorted, Results.sortBy, helements, Results.withKeys_append hbefore hfails]
        rfl
      · refine .inr ⟨pairs, hpairs, Results.eq_ofValues hpairs, ?_⟩
        replace hsorted :
            sorted = .ofExcept (Results.sortPairs ctx.collation descending pairs) := by
          rw [hsorted, Results.sortBy_eq hpairs]
        rw [Results.sortPairs] at hsorted
        rcases Results.sort_placed (c := ctx.collation) descending pairs with
          ⟨placed, hperm, hplaced, horder⟩ | ⟨hunordered, hmany, hnone⟩
        · refine .inl ⟨placed, hperm, ?_, horder⟩
          rw [hsorted, hplaced]
          exact congrArg Results.ofValues List.map_map
        · refine .inr ⟨hunordered, hmany, ?_⟩
          rw [hsorted, hnone]
          rfl

/-- `SORT` downwards, too, leaves an integer in front of the floating-point number that is the
same. -/
theorem sort_in_order_ties :
    let ctx := Context.ofDocuments [.int32 1, .int32 2, .double ⟨0x3FF0000000000000⟩] [] .binary
      ⟨.ofDate .epoch, fun _ _ => 0⟩
    let pairs := ctx.documents.map fun value => (value, value)
    ∃ placed : List ((Value × Value) × Nat), placed.Perm pairs.zipIdx ∧
      (Node.sort .documents (.path .empty .current [])
        (some (.int32 (-1)))).flatten.evalValues ctx =
          .ofValues (placed.map fun item => item.1.2) ∧
      placed.Pairwise (Results.StandsBefore .binary true) := by
  intro ctx pairs
  have hkeyed : (Node.documents.flatten.evalValues ctx).map
      (Results.keyed ((Node.path .empty .current []).keyOf ctx)) = pairs.map .ok := rfl
  rcases sort_in_order .documents (.path .empty .current []) (some (.int32 (-1))) ctx with
    ⟨error, hfails, -⟩ | ⟨descending, hdescending, hcases⟩
  · cases hfails
  · obtain rfl : true = descending := Except.ok.inj hdescending
    rcases hcases with ⟨before, element, later, error, hsplit, -, hfails, -⟩ |
      ⟨pairs', hpairs, -, ⟨placed, hperm, hsorted, horder⟩ | ⟨-, hmany, -⟩⟩
    · have hmem : .error error ∈ (Node.documents.flatten.evalValues ctx).map
          (Results.keyed ((Node.path .empty .current []).keyOf ctx)) := by
        rw [hsplit, ← hfails]
        exact List.mem_map_of_mem (by simp)
      rw [hkeyed] at hmem
      simp at hmem
    · obtain rfl : pairs = pairs' :=
        List.map_injective_iff.mpr (fun _ _ => Except.ok.inj) (hkeyed.symm.trans hpairs)
      refine ⟨placed, hperm, hsorted, horder ?_⟩
      unfold Value.PreorderedOn
      decide +kernel
    · obtain rfl : pairs = pairs' :=
        List.map_injective_iff.mpr (fun _ _ => Except.ok.inj) (hkeyed.symm.trans hpairs)
      exact absurd hmany (by decide)

/-- Two neighbouring integers and the floating-point number that both of them are the same as are
in no order. Among the 21 elements of this array `SORT` finds this out, though each of them has a
value, which is its own key: there is no rearrangement of them, and no error of an element. -/
theorem sort_without_order :
    let close : List Value := [.int64 9007199254740993, .int64 9007199254740992] ++
      List.replicate 8 (.double ⟨0x4340000000000000⟩) ++
      List.replicate 2 (.int64 9007199254740992) ++ List.replicate 9 (.double ⟨0x4340000000000000⟩)
    let ctx := Context.ofDocument (.document [("a", .array close)]) [] .ignoreCase
      ⟨.ofDate .epoch, fun _ _ => 0⟩
    let source := Node.path (.single "a") .document [.member "a", .all]
    let sorted := (Node.sort source .atHand none).flatten.evalValues ctx
    source.flatten.evalValues ctx = .ofValues close ∧
      (∀ value ∈ close, Node.atHand.keyOf ctx value = .ok value) ∧
      sorted = .failed .noTotalOrder ∧
      ¬ ∃ placed : List Value, placed.Perm close ∧ sorted = .ofValues placed := by
  intro close ctx source sorted
  have hsource : source.flatten.evalValues ctx = .ofValues close := by
    rw [Node.flatten_values]
    rfl
  have hnone : Sorting.sort (fun a b => Results.precedes .ignoreCase false a.1 b.1)
      (close.map fun value => (value, value)) = none := by
    rw [← Option.isNone_iff_eq_none]
    decide +kernel
  have hpairs : Results.sortPairs .ignoreCase false (close.map fun value => (value, value)) =
      .error .noTotalOrder := by
    rw [Results.sortPairs, hnone]
  have hsorted : sorted = .failed .noTotalOrder :=
    (Node.evalValues_sort_atHand hsource).trans (congrArg Results.ofExcept hpairs)
  refine ⟨hsource, fun value _ => congrFun (Node.keyOf_atHand ctx) value, hsorted, ?_⟩
  rintro ⟨placed, -, hplaced⟩
  have hfailed : Except.error .noTotalOrder ∈ Results.ofValues placed := by
    rw [← hplaced, hsorted]
    exact List.mem_singleton_self _
  obtain ⟨value, -, hvalue⟩ := List.mem_map.mp hfailed
  cases hvalue

/-! ### The least and the greatest -/

namespace Aggregate

variable {c : Collation} (values : List Value)

/-- The greatest value is the last of the sorted ones, whether comparing orders them or not. -/
theorem greatest?_eq_getLast? :
    greatest? c values = (Sorting.insertionSort (Results.precedes c false) values).getLast? := by
  cases values with
  | nil => rfl
  | cons first rest =>
      rw [Sorting.getLast?_insertionSort, greatest?]
      congr 2
      funext best v
      rw [Sorting.later, Results.precedes_upwards]

/-- The least value is the first of the sorted ones. -/
theorem least?_eq_head? (h : Value.PreorderedOn c values) :
    least? c values = (Sorting.insertionSort (Results.precedes c false) values).head? := by
  cases values with
  | nil => rfl
  | cons first rest =>
      have hkeys : Value.PreorderedOn c ((first :: rest).map id) := by rwa [List.map_id]
      have hsortable : Sorting.Sortable (Results.precedes c false) (first :: rest) :=
        Results.sortable false hkeys
      rw [Sorting.head?_insertionSort hsortable, least?]
      congr 2
      funext best v
      rw [Sorting.earlier, Results.precedes_upwards]

/-- Values that comparing orders are sorted by themselves. -/
theorem sortPairs_self (h : Value.PreorderedOn c values) :
    Results.sortPairs c false (values.map fun value => (value, value)) =
      .ok (Sorting.insertionSort (Results.precedes c false) values) := by
  have hkeys : Value.PreorderedOn c ((values.map fun value => (value, value)).map Prod.fst) := by
    rw [List.map_map]
    exact (List.map_id values).symm ▸ h
  have hsorted := Sorting.sort_sortable (Results.sortable false hkeys)
  rw [Results.sortPairs, hsorted, Sorting.insertionSort_map]
  change Except.ok ((List.map _ _).map Prod.snd) = _
  rw [List.map_map]
  exact congrArg Except.ok (List.map_id _)

end Aggregate

theorem Results.collect_ofValues (values : List Value) :
    (ofValues values).collect = .ok values := by
  induction values with
  | nil => rfl
  | cons value rest ih =>
      change (collect (ofValues rest)).map (value :: ·) = _
      rw [ih]
      rfl

namespace Node

/-- A function of one sequence is given its values as an array. -/
theorem evalScalar_call {function : Builtin} (hparams : function.signature.params = [.sequence])
    (hone : function.isScalar = true) {source : Node} {ctx : Context} {values : List Value}
    (h : source.asSequence.flatten.evalValues ctx = .ofValues values) :
    (call function [source]).flatten.evalScalar ctx =
      (function.apply ctx.collation [.array values]).map CallResult.toValue := by
  have hform : (call function [source]).form = .call function [source.asSequence] := by
    rw [call, hparams]
    rfl
  have harguments : Pool.arguments evaluator ctx [source.asSequence] = .ok [.array values] := by
    rw [flatten_values] at h
    have hsequence : evaluator.isScalar source.asSequence = false := isScalar_asSequence source
    have hvalues : evaluator.values source.asSequence ctx = .ofValues values := h
    simp only [Pool.arguments, hsequence, hvalues, Results.collect_ofValues]
    rfl
  rw [flatten_scalar, scalar_of_isScalar (by rw [call, isScalar_compose, hone]), action, hform]
  change (Pool.invoke evaluator ctx function [source.asSequence]).map CallResult.toValue = _
  rw [Pool.invoke, harguments]
  rfl

end Node

/-- The `MIN` of some values is the first of them sorted, and the `MAX` the last: of values that are
the same the first and the last. -/
theorem least_greatest_sorted {source : Node} {ctx : Context} {values : List Value}
    (hne : values ≠ [])
    (hvalues : source.asSequence.flatten.evalValues ctx = .ofValues values)
    (hordered : Value.PreorderedOn ctx.collation values) :
    ∃ sorted least greatest,
      (Node.sort source.asSequence .atHand none).flatten.evalValues ctx = .ofValues sorted ∧
      (Node.call .least [source]).flatten.evalScalar ctx = .ok least ∧
      sorted.head? = some least ∧
      (Node.call .greatest [source]).flatten.evalScalar ctx = .ok greatest ∧
      sorted.getLast? = some greatest := by
  rw [Node.evalValues_sort_atHand hvalues, Aggregate.sortPairs_self _ hordered,
    Node.evalScalar_call rfl rfl hvalues, Node.evalScalar_call rfl rfl hvalues]
  cases values with
  | nil => exact absurd rfl hne
  | cons first rest =>
      refine ⟨_, _, _, rfl, rfl, ?_, rfl, ?_⟩
      · rw [Call.sequenceArg, ← Aggregate.least?_eq_head? _ hordered]
        rfl
      · rw [Call.sequenceArg, ← Aggregate.greatest?_eq_getLast?]
        rfl

/-- Among values that are the same, such as strings in different case, the first is the least and
the last the greatest. -/
theorem least_greatest_sorted_ties :
    let ctx := Context.ofDocuments [.string "b", .string "A", .string "a", .string "B"] []
      .ignoreCase ⟨.ofDate .epoch, fun _ _ => 0⟩
    ∃ sorted, (Node.sort .documents .atHand none).flatten.evalValues ctx = .ofValues sorted ∧
      (Node.call .least [.documents]).flatten.evalScalar ctx = .ok (.string "A") ∧
      sorted.head? = some (.string "A") ∧
      (Node.call .greatest [.documents]).flatten.evalScalar ctx = .ok (.string "B") ∧
      sorted.getLast? = some (.string "B") := by
  intro ctx
  have hvalues : Node.documents.asSequence.flatten.evalValues ctx = .ofValues ctx.documents := rfl
  have hordered : Value.PreorderedOn ctx.collation ctx.documents := by
    unfold Value.PreorderedOn
    decide +kernel
  obtain ⟨sorted, least, greatest, hsorted, hleast, hhead, hgreatest, hlast⟩ :=
    least_greatest_sorted (List.cons_ne_nil _ _) hvalues hordered
  have hA : (Node.call .least [.documents]).flatten.evalScalar ctx = .ok (.string "A") :=
    (Node.evalScalar_call rfl rfl rfl).trans rfl
  have hB : (Node.call .greatest [.documents]).flatten.evalScalar ctx = .ok (.string "B") :=
    (Node.evalScalar_call rfl rfl rfl).trans rfl
  obtain rfl := Except.ok.inj (hleast.symm.trans hA)
  obtain rfl := Except.ok.inj (hgreatest.symm.trans hB)
  exact ⟨sorted, hsorted, hleast, hhead, hgreatest, hlast⟩

end DocQuery
