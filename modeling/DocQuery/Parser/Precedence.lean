import DocQuery.Node.Compose
import DocQuery.Parser.Error
/-!
# DocQuery.Parser.Precedence

Terms joined by operators, made into one expression. Level by level, the tightest
first, every operator of the level takes the terms beside it; within a level the
operators are applied from left to right.
-/

namespace DocQuery

namespace Precedence

/-- A term and the operators behind it, each with its right term. -/
abbrev Tail := List (Operator × Node)

/-- Two terms joined by an operator. A quantified operator takes a sequence on its
left, every other operator one value; the right term is always one value. -/
def combine (op : Operator) (left right : Node) : Except ParseError Node := do
  let left ← match op with
    | .quantified _ _ => pure left.asSequence
    | _ => if left.isScalar then pure left else throw (.leftNotScalar left.source)
  if right.isScalar then return Node.operation op left right
  else throw (.rightNotScalar right.source)

/-- Applies the operators of one level. -/
def pass (level : Nat) : Node → Tail → Except ParseError (Node × Tail)
  | first, [] => return (first, [])
  | first, (op, term) :: rest =>
    if op.level = level then do pass level (← combine op first term) rest
    else do
      let (term, rest) ← pass level term rest
      return (first, (op, term) :: rest)

/-- Applies the operators of all levels. -/
def reduce (first : Node) (tail : Tail) : Except ParseError Node := do
  let (node, _) ← (List.range Operator.levels).foldlM
    (fun (first, tail) level => pass level first tail) (first, tail)
  return node

end Precedence

end DocQuery
