/-!
# DocQuery.Eval.Sorting

The stable sort that keys are put in order with, given when one element has to precede another one.
Up to twenty elements are inserted one after the other. More of them are cut into runs: elements
that stand in order already, short stretches that are sorted at once, or stretches that are left as
they are until they are merged and then split around pivots. Runs are merged in the order in which
a balanced tree over all places would have them merged.

If it is not settled as in an order when one element has to precede another one, the result depends
on which elements are compared, so this is the algorithm step by step. It may then have no result:
the two merges of a short stretch, one from each end, may fail to meet, and this ends the program.
-/

namespace DocQuery

namespace Sorting

variable {α : Type} (precedes : α → α → Bool)

/-! ### Insertion -/

/-- Elements from the last to the first, with one more put in: behind the nearest
element that it does not have to precede. -/
def insertBack (x : α) : List α → List α
  | [] => [x]
  | y :: rest => if precedes x y then y :: insertBack x rest else x :: y :: rest

/-- Elements in order, with others put in one after the other. -/
def insertAll (sorted elements : List α) : List α :=
  (elements.foldl (fun sorted x => insertBack precedes x sorted) sorted.reverse).reverse

/-- The elements in order. Those of which neither has to precede the other stay as
they stand. -/
def insertionSort (elements : List α) : List α :=
  insertAll precedes [] elements

/-! ### Merges -/

/-- Two lists in order made into one. Of two elements in front the one of the second list
is taken only if it has to precede the other one. -/
def merge : List α → List α → List α
  | [], right => right
  | left, [] => left
  | a :: left, b :: right =>
    if precedes b a then b :: merge (a :: left) right else a :: merge left (b :: right)
termination_by left right => left.length + right.length

/-- The same, with the elements taken from the last to the first. -/
def mergeBack (left right : List α) : List α :=
  (merge (fun a b => precedes b a) right.reverse left.reverse).reverse

/-- A merge starts at the side of the shorter list. -/
def mergeRuns (left right : List α) : List α :=
  if left.length ≤ right.length then merge precedes left right else mergeBack precedes left right

/-- Elements of two halves, each marked by whether it is of the left one. Between those taken from
the front and those taken from the back stands at most one, which is of the left half if not all of
it is taken. -/
def joinEnds (lefts rights front back : List (Bool × α)) : List (Bool × α) :=
  let fromLeft := front.countP Prod.fst
  let others :=
    if fromLeft + back.countP Prod.fst < lefts.length then lefts.drop fromLeft
    else rights.drop (front.length - fromLeft)
  front ++ others.take (rights.length - lefts.length) ++ back

/-- Two halves in order made into one list, of which the second may be longer by one element. One
merge takes elements from the front and one from the back, as many as there are in the first half.
There is no result unless the halves are used up by this. -/
def mergeHalves (left right : List α) : Option (List α) :=
  let lefts := left.map (Prod.mk true)
  let rights := right.map (Prod.mk false)
  let front := (merge (fun a b => precedes a.2 b.2) lefts rights).take left.length
  let back := (mergeBack (fun a b => precedes a.2 b.2) lefts rights).drop right.length
  let merged := joinEnds lefts rights front back
  if merged.countP Prod.fst = left.length then some (merged.map Prod.snd) else none

/-! ### Short stretches -/

/-- Two elements in order. -/
def sortTwo (a b : α) : α × α := if precedes b a then (b, a) else (a, b)

/-- Four elements in order, by five comparisons. -/
def sortFour (v w x y : α) : List α :=
  let (a, b) := sortTwo precedes v w
  let (c, d) := sortTwo precedes x y
  let (least, left, right, greatest) :=
    match precedes c a, precedes d b with
    | false, false => (a, b, c, d)
    | false, true => (a, c, d, b)
    | true, false => (c, a, b, d)
    | true, true => (c, a, d, b)
  let (low, high) := sortTwo precedes left right
  [least, low, high, greatest]

/-- Half of a stretch in order, of which the first four may be sorted by themselves. -/
def sortHalf (four : Bool) : List α → List α
  | v :: w :: x :: y :: rest =>
    if four then insertAll precedes (sortFour precedes v w x y) rest
    else insertionSort precedes (v :: w :: x :: y :: rest)
  | few => insertionSort precedes few

/-- The elements of a short stretch in order. -/
def smallSort (elements : List α) : Option (List α) :=
  let half := elements.length / 2
  let four := decide (8 ≤ elements.length)
  mergeHalves precedes (sortHalf precedes four (elements.take half))
    (sortHalf precedes four (elements.drop half))

/-- How many elements a short stretch has at most. -/
def smallLength : Nat := 32

/-! ### Runs -/

/-- Neighbouring elements, which may be in order. -/
structure Run (α : Type) where
  elements : List α
  isSorted : Bool

/-- How many elements in front are linked, each one to the next. -/
def linkedLength (linked : α → α → Bool) : List α → Nat
  | a :: b :: rest => if linked a b then linkedLength linked (b :: rest) + 1 else 1
  | few => few.length

/-- The second element has to precede the first one. -/
def startsDown : List α → Bool
  | a :: b :: _ => precedes b a
  | _ => false

/-- The run in front of some elements. They are taken as they stand if enough of them are in order,
and the other way round if enough of them each have to precede the one in front. -/
def nextRun (eager : Bool) (good : Nat) (elements : List α) : Option (Run α) :=
  let descending := startsDown precedes elements
  let length := linkedLength (fun a b => precedes b a == descending) elements
  if good ≤ length then
    let found := elements.take length
    some ⟨if descending then found.reverse else found, true⟩
  else if eager then
    (smallSort precedes (elements.take smallLength)).map (⟨·, true⟩)
  else some ⟨elements.take good, false⟩

/-- All elements as runs. A run has at least one element. -/
def runs (eager : Bool) (good : Nat) : List α → Option (List (Run α))
  | [] => some []
  | first :: rest => do
    let run ← nextRun precedes eager good (first :: rest)
    return run :: (← runs eager good (rest.drop (run.elements.length - 1)))
termination_by elements => elements.length
decreasing_by simp only [List.length_drop, List.length_cons]; omega

section

variable (scratch : Nat) (quick : List α → Option (List α))

/-- The elements of a run in order. -/
def Run.settle (run : Run α) : Option (List α) :=
  if run.isSorted then some run.elements else quick run.elements

/-- Two neighbouring runs as one. If neither is in order, they are only put together, as
long as there is enough space to split them later. -/
def joinRuns (left right : Run α) : Option (Run α) := do
  let elements := left.elements ++ right.elements
  if elements.length ≤ scratch && !left.isSorted && !right.isSorted then
    return ⟨elements, false⟩
  else
    return ⟨mergeRuns precedes (← left.settle quick) (← right.settle quick), true⟩

/-- The last run, joined with the runs in front that are at least this deep in the tree of merges.
They come from the last to the first, each with the depth of its merge. -/
def collapse (depth : Nat) : Run α → List (Run α × Nat) → Option (Run α × List (Run α × Nat))
  | last, [] => some (last, [])
  | last, (left, deep) :: stack =>
    if depth ≤ deep then do collapse depth (← joinRuns precedes scratch quick left last) stack
    else some (last, (left, deep) :: stack)

/-- All runs as one, given the depth of the merge at a place between two runs. -/
def joinAll (depthAt : Nat → Nat → Nat → Nat) (stack : List (Run α × Nat)) (last : Run α)
    (scanned : Nat) : List (Run α) → Option (Run α)
  | [] => do return (← collapse precedes scratch quick 0 last stack).1
  | next :: rest => do
    let stop := scanned + next.elements.length
    let depth := depthAt (scanned - last.elements.length) scanned stop
    let (joined, stack) ← collapse precedes scratch quick depth last stack
    joinAll depthAt ((joined, depth) :: stack) next stop rest

end

/-- The number of zeros in front of a number with 64 binary digits. -/
def leadingZeros (n : Nat) : Nat := if n = 0 then 64 else 63 - n.log2

/-- How deep the merge of two neighbouring runs is in a balanced tree over this many places. -/
def mergeDepth (count start middle stop : Nat) : Nat :=
  let scale := ((1 <<< 62) + count - 1) / count
  leadingZeros ((scale * (start + middle)) ^^^ (scale * (middle + stop)))

/-- How many elements have to be in order to be kept as a run: for many elements about the
square root. -/
def goodLength (count : Nat) : Nat :=
  if count ≤ 4096 then min (count - count / 2) 64
  else
    let shift := (1 + (count ||| 1).log2) / 2
    ((1 <<< shift) + (count >>> shift)) / 2

/-- How many elements there is space for beside this many. -/
def scratchLength (count : Nat) : Nat := max (count - count / 2) (min count 125000)

/-- The elements in order, by their runs. An eager sort sorts each run at once. -/
def sortRuns (eager : Bool) (quick : List α → Option (List α)) (elements : List α) :
    Option (List α) := do
  let count := elements.length
  match ← runs precedes eager (goodLength count) elements with
  | [] => return []
  | first :: rest =>
    let run ← joinAll precedes (scratchLength count) quick (mergeDepth count) [] first
      first.elements.length rest
    run.settle quick

/-! ### Pivots -/

/-- Of three places the one whose element is between the others. -/
def median (before : Nat → Nat → Bool) (a b c : Nat) : Nat :=
  if before a b = before a c then if before b c = before a b then b else c else a

/-- The median of three places or, if this many elements behind each are enough, of the medians
found there. -/
def medianOfMedians (before : Nat → Nat → Bool) (count a b c : Nat) : Nat :=
  if 8 ≤ count then
    let part := count / 8
    let inner (start : Nat) :=
      medianOfMedians before part start (start + part * 4) (start + part * 7)
    median before (inner a) (inner b) (inner c)
  else median before a b c
termination_by count

/-- The place of the pivot among some elements. -/
def pivotPlace (elements : List α) : Nat :=
  let before i j := elements[i]?.any fun a => elements[j]?.any (precedes a)
  let part := elements.length / 8
  medianOfMedians before part 0 (part * 4) (part * 7)

/-- The elements around a pivot that satisfy a condition and those that do not. The pivot is put
among the ones or the others unasked. -/
def splitAround (goesLeft : α → Bool) (pivotLeft : Bool) (before : List α) (pivot : α)
    (after : List α) : List α × List α :=
  let side (left : Bool) :=
    before.filter (goesLeft · == left) ++ (if pivotLeft = left then [pivot] else []) ++
      after.filter (goesLeft · == left)
  (side true, side false)

/-- The elements in order, split around pivots. If the pivot is the same as the last one that was
split around on the left, or has nothing in front of it, the elements that are the same are put in
front. After too many splits the elements are sorted by their runs. -/
def quicksort : Nat → Option α → List α → Option (List α)
  | 0, _, elements =>
    if elements.length ≤ smallLength then smallSort precedes elements
    else sortRuns precedes true some elements
  | limit + 1, ancestor, elements =>
    if elements.length ≤ smallLength then smallSort precedes elements
    else
      let place := pivotPlace precedes elements
      match elements.drop place with
      | [] => some elements
      | pivot :: after => do
        let before := elements.take place
        let (less, others) := splitAround (precedes · pivot) false before pivot after
        if ancestor.any (!precedes · pivot) || less.isEmpty then
          let (same, greater) := splitAround (!precedes pivot ·) true before pivot after
          return same ++ (← quicksort limit none greater)
        else
          let others ← quicksort limit (some pivot) others
          return (← quicksort limit ancestor less) ++ others

/-! ### The sort -/

/-- The elements in order. Those of which neither has to precede the other stay as they stand. -/
def sort (elements : List α) : Option (List α) :=
  let count := elements.length
  if count ≤ 20 then some (insertionSort precedes elements)
  else
    sortRuns precedes (decide (count ≤ 2 * smallLength))
      (fun run => quicksort precedes (2 * (run.length ||| 1).log2) none run) elements

end Sorting

end DocQuery
