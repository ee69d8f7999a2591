import DocQuery.Eval.Context
import DocQuery.Operator
import DocQuery.Text.Glob
import DocQuery.Value.Order
/-!
# DocQuery.Eval.Comparison

The comparison of values, and of the elements of a sequence with one value. A
quantified comparison ends at the first element that decides it.
-/

namespace DocQuery

namespace Comparison

/-- The value is a text that the pattern accepts. -/
def isLike (c : Collation) (pattern : Text.Glob) : Value → Bool
  | .string s => Text.Glob.accepts c.foldsCase pattern s.toList
  | _ => false

/-- The value lies between the two bounds of a range, or is one of them. -/
def isBetween (c : Collation) (a range : Value) : Except EvalError Bool :=
  match range with
  | .array [lower, upper] =>
    .ok ((Value.compare c a lower).isGE && (Value.compare c a upper).isLE)
  | _ => .error (.wrongTypes ComparisonOp.between.name [a, range])

/-- The value is an element of an array, or the same as any other value. -/
def isIn (c : Collation) (a b : Value) : Bool :=
  match b with
  | .array items => items.any (Value.same c a)
  | b => Value.same c a b

/-- The result of an operator. -/
def apply (c : Collation) (op : ComparisonOp) (a b : Value) : Except EvalError Bool :=
  match op with
  | .equal => .ok (Value.same c a b)
  | .notEqual => .ok (!Value.same c a b)
  | .greater => .ok (Value.compare c a b).isGT
  | .greaterEqual => .ok (Value.compare c a b).isGE
  | .less => .ok (Value.compare c a b).isLT
  | .lessEqual => .ok (Value.compare c a b).isLE
  | .like =>
    match b with
    | .string pattern => .ok (isLike c (Text.Glob.ofText pattern.toList) a)
    | _ => .ok false
  | .between => isBetween c a b
  | .isIn => .ok (isIn c a b)

end Comparison

namespace Quantifier

/-- The result of an element decides that of the sequence. -/
def isDecidedBy : Quantifier → Bool → Bool
  | .any, matched => matched
  | .all, matched => !matched

/-- As many elements as the quantifier asks for satisfy a condition. -/
def holds (quantifier : Quantifier) (condition : Value → Except EvalError Bool) :
    Results → Except EvalError Bool
  | [] => .ok (decide (quantifier = .all))
  | element :: rest => do
    let matched ← condition (← element)
    if quantifier.isDecidedBy matched then return matched
    else quantifier.holds condition rest

end Quantifier

end DocQuery
