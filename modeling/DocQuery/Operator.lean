/-!
# DocQuery.Operator

The operators that join two terms, and how tightly each of them binds. Every
operator has a level of its own, so that of two different operators one always
binds tighter: in `10 - 2 + 3` the sum is formed first.
-/

namespace DocQuery

/-- An operator on numbers; addition also joins texts. -/
inductive ArithmeticOp where
  | modulo | divide | multiply | add | subtract
deriving DecidableEq, Repr, Inhabited

/-- An operator that yields true or false. -/
inductive ComparisonOp where
  | like | between | isIn | greater | greaterEqual | less | lessEqual | notEqual | equal
deriving DecidableEq, Repr, Inhabited

/-- An operator on two values. -/
inductive BinaryOp where
  | arithmetic (op : ArithmeticOp)
  | comparison (op : ComparisonOp)
deriving DecidableEq, Repr, Inhabited

/-- How many elements of a sequence have to satisfy a comparison. -/
inductive Quantifier where
  | any | all
deriving DecidableEq, Repr, Inhabited

/-- An operator on two conditions. -/
inductive LogicOp where
  | and | or
deriving DecidableEq, Repr, Inhabited

/-- What may stand between two terms. -/
inductive Operator where
  | binary (op : BinaryOp)
  | quantified (quantifier : Quantifier) (op : ComparisonOp)
  | logic (op : LogicOp)
deriving DecidableEq, Repr, Inhabited

namespace ArithmeticOp

/-- How the operator is written. -/
def text : ArithmeticOp → String
  | .modulo => "%"
  | .divide => "/"
  | .multiply => "*"
  | .add => "+"
  | .subtract => "-"

/-- What the operator is called in messages. -/
def name : ArithmeticOp → String
  | .modulo => "MOD"
  | .divide => "DIVIDE"
  | .multiply => "MULTIPLY"
  | .add => "ADD"
  | .subtract => "MINUS"

/-- What an expression with this operator is called. -/
def typeName : ArithmeticOp → String
  | .modulo => "Modulo"
  | .divide => "Divide"
  | .multiply => "Multiply"
  | .add => "Add"
  | .subtract => "Subtract"

/-- The place among the operators of this kind, the tightest first. -/
def rank : ArithmeticOp → Nat
  | .modulo => 0
  | .divide => 1
  | .multiply => 2
  | .add => 3
  | .subtract => 4

end ArithmeticOp

namespace ComparisonOp

/-- How the operator is written. -/
def text : ComparisonOp → String
  | .like => "LIKE"
  | .between => "BETWEEN"
  | .isIn => "IN"
  | .greater => ">"
  | .greaterEqual => ">="
  | .less => "<"
  | .lessEqual => "<="
  | .notEqual => "!="
  | .equal => "="

/-- What the operator is called in messages. -/
def name : ComparisonOp → String
  | .like => "LIKE"
  | .between => "BETWEEN"
  | .isIn => "IN"
  | .greater => "GT"
  | .greaterEqual => "GTE"
  | .less => "LT"
  | .lessEqual => "LTE"
  | .notEqual => "NEQ"
  | .equal => "EQ"

/-- What an expression with this operator is called. -/
def typeName : ComparisonOp → String
  | .like => "Like"
  | .between => "Between"
  | .isIn => "In"
  | .greater => "GreaterThan"
  | .greaterEqual => "GreaterThanOrEqual"
  | .less => "LessThan"
  | .lessEqual => "LessThanOrEqual"
  | .notEqual => "NotEqual"
  | .equal => "Equal"

/-- The place among the operators of this kind, the tightest first. -/
def rank : ComparisonOp → Nat
  | .like => 0
  | .between => 1
  | .isIn => 2
  | .greater => 3
  | .greaterEqual => 4
  | .less => 5
  | .lessEqual => 6
  | .notEqual => 7
  | .equal => 8

/-- The operator is a word, so that blanks have to stand around it. -/
def isWord : ComparisonOp → Bool
  | .like | .between | .isIn => true
  | _ => false

/-- The operator as it stands between two terms in canonical text. -/
def separator (op : ComparisonOp) : String :=
  if op.isWord then " " ++ op.text ++ " " else op.text

end ComparisonOp

namespace BinaryOp

/-- How the operator is written. -/
def text : BinaryOp → String
  | .arithmetic op => op.text
  | .comparison op => op.text

/-- What the operator is called in messages. -/
def name : BinaryOp → String
  | .arithmetic op => op.name
  | .comparison op => op.name

/-- What an expression with this operator is called. -/
def typeName : BinaryOp → String
  | .arithmetic op => op.typeName
  | .comparison op => op.typeName

/-- The operator as it stands between two terms in canonical text. -/
def separator : BinaryOp → String
  | .arithmetic op => op.text
  | .comparison op => op.separator

end BinaryOp

namespace Quantifier

/-- How the quantifier is written. -/
def text : Quantifier → String
  | .any => "ANY"
  | .all => "ALL"

end Quantifier

namespace LogicOp

/-- How the operator is written. -/
def text : LogicOp → String
  | .and => "AND"
  | .or => "OR"

/-- What an expression with this operator is called. -/
def typeName : LogicOp → String
  | .and => "And"
  | .or => "Or"

end LogicOp

namespace Operator

/-- How the operator is written. -/
def text : Operator → String
  | .binary op => op.text
  | .quantified quantifier op => quantifier.text ++ " " ++ op.text
  | .logic op => op.text

/-- The operator as it stands between two terms in canonical text. -/
def separator : Operator → String
  | .binary op => op.separator
  | .quantified quantifier op =>
    " " ++ quantifier.text ++ (if op.isWord then " " ++ op.text ++ " " else op.text)
  | .logic op => " " ++ op.text ++ " "

/-- How loosely the operator binds: of two operators the one with the smaller level
is applied first. -/
def level : Operator → Nat
  | .binary (.arithmetic op) => op.rank
  | .binary (.comparison op) => 5 + op.rank
  | .quantified .any op => 14 + op.rank
  | .quantified .all op => 23 + op.rank
  | .logic .and => 32
  | .logic .or => 33

/-- The number of levels. -/
def levels : Nat := 34

/-- The operator asks for two bounds joined by `AND`. -/
def isBetween : Operator → Bool
  | .binary (.comparison .between) | .quantified _ .between => true
  | _ => false

theorem level_lt_levels (op : Operator) : op.level < levels := by
  obtain (op | op) | ⟨_ | _, op⟩ | _ | _ := op <;> (try cases op) <;> decide

end Operator

end DocQuery
