import DocQuery.Builtin.Apply
import DocQuery.Eval.Comparison
import DocQuery.Eval.Sequence
/-!
# DocQuery.Proofs.ValueErrors

Operators and functions are given values, not expressions. Their errors are about these
values: none of them is about the number of values an expression yields, about a path
that starts where nothing is bound, or about a computed place. `Builtin.apply_about`,
`Arithmetic.apply_about` and `Comparison.apply_about` say so for everything there is to
apply. An error that names an operator or a function names the one that was applied. A sort that
finds its keys in no order counts as such an error too (`Results.sortPairs_onValues`).
-/

namespace DocQuery

namespace EvalError

/-- The error is about values, and carries no text of an expression. -/
def aboutValues : EvalError → Bool
  | .notScalar _ | .noRootDocument _ | .indexNotNumber _ => false
  | _ => true

/-- The error is one about values, of what has this name if it names anything. -/
def IsOf (name : String) : EvalError → Prop
  | .invalidTypes operation _ | .invalidArgument operation _ => operation = name
  | .zeroDivision | .invalidJson => True
  | _ => False

theorem IsOf.aboutValues {name : String} {e : EvalError} (h : e.IsOf name) :
    e.aboutValues = true := by
  cases e <;> first | rfl | exact h.elim

end EvalError

/-- If the evaluation fails, its error is about values. -/
def FailsOnValues {α : Type} (x : Except EvalError α) : Prop :=
  ∀ e, x = .error e → e.aboutValues = true

/-- If the evaluation fails, then as what has this name does. -/
def FailsAs (name : String) {α : Type} (x : Except EvalError α) : Prop :=
  ∀ e, x = .error e → e.IsOf name

namespace FailsAs

variable {α β : Type} {name : String}

theorem onValues {x : Except EvalError α} (h : FailsAs name x) : FailsOnValues x :=
  fun e he => (h e he).aboutValues

theorem ok (a : α) : FailsAs name (.ok a : Except EvalError α) := by
  intro e h
  cases h

theorem error {e : EvalError} (he : e.IsOf name) :
    FailsAs name (.error e : Except EvalError α) := by
  intro e' h
  cases h
  exact he

/-- Steps that fail as the same thing does make a whole that does. -/
theorem bind {x : Except EvalError α} {f : α → Except EvalError β} (hx : FailsAs name x)
    (hf : ∀ a, FailsAs name (f a)) : FailsAs name (x >>= f) := by
  cases x with
  | ok a => exact hf a
  | error e => exact error (hx e rfl)

theorem map {x : Except EvalError α} (f : α → β) (hx : FailsAs name x) :
    FailsAs name (x.map f) := by
  cases x with
  | ok a => exact ok (f a)
  | error e => exact error (hx e rfl)

end FailsAs

/-! ### Operators -/

section

variable (name : String)

/-- Integers can be divided by zero; a result that does not fit is another number, and no error. -/
theorem ArithmeticOp.onIntegers_failsAs (op : ArithmeticOp) (narrow : Bool) (a b : Int) :
    FailsAs name (op.onIntegers narrow a b) := by
  unfold ArithmeticOp.onIntegers
  split
  · exact .error trivial
  · split
    · split <;> exact .ok _
    · exact .ok _

theorem Arithmetic.ofNumbers_failsAs (op : ArithmeticOp) (a b : Value) :
    FailsAs name (Arithmetic.ofNumbers op a b) := by
  unfold Arithmetic.ofNumbers
  split
  iterate 4 exact op.onIntegers_failsAs name _ _ _
  -- Anything but two integers is computed in floating point, where nothing fails.
  dsimp only
  split <;> exact .ok _

/-- The errors of arithmetic name nothing. -/
theorem Arithmetic.apply_failsAs (op : ArithmeticOp) (a b : Value) :
    FailsAs name (Arithmetic.apply op a b) := by
  unfold Arithmetic.apply
  split
  iterate 5 exact .ok _
  split
  · exact Arithmetic.ofNumbers_failsAs name _ _ _
  · exact .ok _

end

theorem Arithmetic.apply_about (op : ArithmeticOp) (a b : Value) :
    FailsOnValues (Arithmetic.apply op a b) :=
  (Arithmetic.apply_failsAs "" op a b).onValues

/-- `BETWEEN` asks for two bounds, and is the only comparison that fails. -/
theorem Comparison.isBetween_failsAs (c : Collation) (a range : Value) :
    FailsAs ComparisonOp.between.name (Comparison.isBetween c a range) := by
  unfold Comparison.isBetween
  split
  · exact .ok _
  · exact .error rfl

theorem Comparison.apply_failsAs (c : Collation) (op : ComparisonOp) (a b : Value) :
    FailsAs op.name (Comparison.apply c op a b) := by
  cases op with
  | between => exact Comparison.isBetween_failsAs c a b
  | like =>
      unfold Comparison.apply
      dsimp only
      split <;> exact .ok _
  | _ => exact .ok _

theorem Comparison.apply_about (c : Collation) (op : ComparisonOp) (a b : Value) :
    FailsOnValues (Comparison.apply c op a b) :=
  (Comparison.apply_failsAs c op a b).onValues

/-! ### Functions -/

section

variable (name : String)

theorem Aggregate.sum_failsAs (values : List Value) : FailsAs name (Aggregate.sum values) := by
  unfold Aggregate.sum
  -- Along the numbers, for any total that has been added up so far.
  generalize Value.int32 0 = total
  induction values.filter Value.isNumber generalizing total with
  | nil => exact .ok total
  | cons v rest ih => exact (Arithmetic.apply_failsAs name .add total v).bind ih

theorem Aggregate.average_failsAs (values : List Value) :
    FailsAs name (Aggregate.average values) := by
  unfold Aggregate.average
  dsimp only
  split
  · exact .ok _
  · exact (Aggregate.sum_failsAs name (values.filter Value.isNumber)).bind fun _ => .ok _

theorem Convert.json_failsAs (s : String) : FailsAs name (Convert.json s) := by
  unfold Convert.json
  split
  · exact .ok _
  · exact .error trivial

theorem Dates.partOf_failsAs (part : String) : FailsAs name (Dates.partOf name part) := by
  unfold Dates.partOf
  split
  · exact .ok _
  · exact .error rfl

end

namespace Call

variable (f : Builtin) (args : List Value)

theorem wrongTypes_failsAs {α : Type} :
    FailsAs f.name (wrongTypes f args : Except EvalError α) :=
  .error rfl

theorem one_failsAs (value? : Option Value) : FailsAs f.name (one f args value?) := by
  cases value? with
  | some v => exact .ok _
  | none => exact wrongTypes_failsAs f _

theorem many_failsAs (values? : Option (List Value)) : FailsAs f.name (many f args values?) := by
  cases values? with
  | some vs => exact .ok _
  | none => exact wrongTypes_failsAs f _

theorem readJson_failsAs : FailsAs f.name (readJson f args) := by
  unfold readJson
  split
  · exact (Convert.json_failsAs _ _).map _
  · exact .ok _
  · exact wrongTypes_failsAs f _

theorem pad_failsAs (inFront : Bool) : FailsAs f.name (pad f args inFront) := by
  unfold pad
  split
  · split
    · split
      · exact .error rfl
      · exact .ok _
    · exact wrongTypes_failsAs f _
  · exact .ok _
  · exact wrongTypes_failsAs f _

theorem splitText_failsAs : FailsAs f.name (splitText f args) := by
  unfold splitText
  split
  · split
    · exact .error rfl
    · exact .ok _
  · exact .ok _
  · exact wrongTypes_failsAs f _

theorem addToDate_failsAs : FailsAs f.name (addToDate f args) := by
  unfold addToDate
  split
  · split
    · split
      · exact (Dates.partOf_failsAs _ _).map _
      · exact wrongTypes_failsAs f _
    · exact wrongTypes_failsAs f _
  · exact .ok _
  · exact wrongTypes_failsAs f _

theorem dateDifference_failsAs : FailsAs f.name (dateDifference f args) := by
  unfold dateDifference
  split
  · exact (Dates.partOf_failsAs _ _).map _
  · exact .ok _
  · exact .ok _
  · exact wrongTypes_failsAs f _

end Call

/-- What goes wrong in a function names the function. -/
theorem Builtin.apply_failsAs (c : Collation) (f : Builtin) (args : List Value) :
    FailsAs f.name (f.apply c args) := by
  -- By what is done with arguments of the wrong types: most functions yield one value or an error.
  cases f with
  | items | union | except | top => exact Call.many_failsAs _ _ _
  | json => exact Call.readJson_failsAs _ _
  | sum => exact (Aggregate.sum_failsAs _ _).map _
  | average => exact (Aggregate.average_failsAs _ _).map _
  | padLeft | padRight => exact Call.pad_failsAs _ _ _
  | split => exact Call.splitText_failsAs _ _
  | dateAdd => exact Call.addToDate_failsAs _ _
  | dateDiff => exact Call.dateDifference_failsAs _ _
  | minValue | maxValue | count | least | greatest | first | last | any | keys | values
  | distinct | join => exact .ok _
  | _ => exact Call.one_failsAs _ _ _

/-- What goes wrong in a function is about its arguments. -/
theorem Builtin.apply_about (c : Collation) (f : Builtin) (args : List Value) :
    FailsOnValues (f.apply c args) :=
  (Builtin.apply_failsAs c f args).onValues

/-- A sort fails on the keys that it is given only if they turn out to be in no order. -/
theorem Results.sortPairs_error {c : Collation} {descending : Bool} {pairs : List (Value × Value)}
    {e : EvalError} (h : sortPairs c descending pairs = .error e) : e = .noTotalOrder := by
  unfold sortPairs at h
  split at h
  · cases h
  · exact (Except.error.inj h).symm

theorem Results.sortPairs_onValues (c : Collation) (descending : Bool)
    (pairs : List (Value × Value)) : FailsOnValues (sortPairs c descending pairs) := by
  intro e h
  rw [sortPairs_error h]
  rfl

end DocQuery
