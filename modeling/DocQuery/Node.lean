import DocQuery.Builtin
import DocQuery.Fields
import DocQuery.Operator
import DocQuery.Value
/-!
# DocQuery.Node

Expressions as trees. A `Form` is one layer of such a tree with something in the
places of its parts; a `Node` is a form with nodes in these places, together with
what is known about it: its type, its canonical text, how many values it yields,
and what its value may depend on.

Functions on nodes are folds: `Node.fold` computes a result from one layer whose
parts come with their own results, and `fold_mk` is the equation by which it is
reasoned about. `Node.induction` goes from the parts of a node to the node.
-/

namespace DocQuery

/-- What an expression is, as the description of a compiled expression names it. -/
inductive ExprType where
  | double | int | boolean | null | string | array | document
  | parameter | path | map | filter | sort | call | source
  | binary (op : BinaryOp)
  | logic (op : LogicOp)
deriving DecidableEq, Repr, Inhabited

namespace ExprType

/-- The name of the type. -/
def name : ExprType → String
  | .double => "Double"
  | .int => "Int"
  | .boolean => "Boolean"
  | .null => "Null"
  | .string => "String"
  | .array => "Array"
  | .document => "Document"
  | .parameter => "Parameter"
  | .path => "Path"
  | .map => "Map"
  | .filter => "Filter"
  | .sort => "Sort"
  | .call => "Call"
  | .source => "Source"
  | .binary op => op.typeName
  | .logic op => op.typeName

end ExprType

/-- Where a path starts: at the document, or at the element at hand. -/
inductive PathRoot where
  | document | current
deriving DecidableEq, Repr, Inhabited

namespace PathRoot

/-- How the beginning of a path is written. -/
def sigil : PathRoot → String
  | .document => "$"
  | .current => "@"

end PathRoot

/-- One step of a path. -/
inductive PathStep (ν : Type) where
  /-- The value of a name. -/
  | member (name : String)
  /-- The element at a place, counted from the end if negative. -/
  | index (place : Int)
  /-- The element at a place that is computed. -/
  | indexOf (place : ν)
  /-- Every element of an array. -/
  | all
  /-- The elements of an array for which a condition holds. -/
  | filter (condition : ν)
  /-- Every element of an array or a binary; any other value by itself. -/
  | items
deriving Repr, DecidableEq

namespace PathStep

variable {ν μ : Type}

/-- The step yields any number of values. -/
def isEnumerable : PathStep ν → Bool
  | .all | .filter _ | .items => true
  | _ => false

/-- The step with something else in the place of its part. -/
def map (f : ν → μ) : PathStep ν → PathStep μ
  | .member name => .member name
  | .index place => .index place
  | .indexOf part => .indexOf (f part)
  | .all => .all
  | .filter part => .filter (f part)
  | .items => .items

/-- The part of the step. -/
def children : PathStep ν → List ν
  | .indexOf part | .filter part => [part]
  | _ => []

end PathStep

/-- One layer of an expression. -/
inductive Form (ν : Type) where
  | constant (value : Value)
  | parameter (name : String)
  /-- The sequence of all documents. -/
  | documents
  | document (entries : List (String × ν))
  | array (items : List ν)
  | path (root : PathRoot) (steps : List (PathStep ν))
  /-- What a selector yields for each element of a sequence. -/
  | map (source selector : ν)
  /-- The elements of a sequence for which a predicate holds. -/
  | filter (source predicate : ν)
  /-- The elements of a sequence in the order of their keys. -/
  | sort (source key : ν) (order : Option ν)
  | call (function : Builtin) (args : List ν)
  /-- A call of a generator that is written at this offset. -/
  | generate (generator : Generator) (site : Nat)
  | binary (op : BinaryOp) (left right : ν)
  /-- A comparison of the elements of a sequence with one value. -/
  | quantified (quantifier : Quantifier) (op : ComparisonOp) (left right : ν)
  | logic (op : LogicOp) (left right : ν)
  | conditional (test ifTrue ifFalse : ν)

namespace Form

variable {ν μ : Type}

/-- The form with something else in the places of its parts. -/
def mapParts (f : ν → μ) : Form ν → Form μ
  | .constant value => .constant value
  | .parameter name => .parameter name
  | .documents => .documents
  | .document entries => .document (entries.map fun (name, part) => (name, f part))
  | .array items => .array (items.map f)
  | .path root steps => .path root (steps.map (PathStep.map f))
  | .map source selector => .map (f source) (f selector)
  | .filter source predicate => .filter (f source) (f predicate)
  | .sort source key order => .sort (f source) (f key) (order.map f)
  | .call function args => .call function (args.map f)
  | .generate generator site => .generate generator site
  | .binary op left right => .binary op (f left) (f right)
  | .quantified quantifier op left right => .quantified quantifier op (f left) (f right)
  | .logic op left right => .logic op (f left) (f right)
  | .conditional test ifTrue ifFalse => .conditional (f test) (f ifTrue) (f ifFalse)

/-- The parts in the order in which they are evaluated. -/
def children : Form ν → List ν
  | .constant _ | .parameter _ | .documents | .generate _ _ => []
  | .document entries => entries.map Prod.snd
  | .array items => items
  | .path _ steps => steps.flatMap PathStep.children
  | .map source selector => [source, selector]
  | .filter source predicate => [source, predicate]
  | .sort source key order => source :: key :: order.toList
  | .call _ args => args
  | .binary _ left right | .quantified _ _ left right | .logic _ left right => [left, right]
  | .conditional test ifTrue ifFalse => [test, ifTrue, ifFalse]

end Form

/-- What is known about an expression. -/
structure NodeInfo where
  type : ExprType
  /-- It yields one value. -/
  isScalar : Bool
  /-- Its value depends on nothing but the collation. -/
  isImmutable : Bool
  /-- It reads the sequence of all documents. -/
  usesSource : Bool
  /-- The fields of the root document that it reads. -/
  fields : Fields
  /-- Its canonical text. -/
  source : String
deriving DecidableEq, Repr, Inhabited

/-- An expression. -/
inductive Node where
  | mk (info : NodeInfo) (form : Form Node)

namespace Node

instance : Inhabited Node := ⟨.mk default .documents⟩

/-- What is known about the expression. -/
def info : Node → NodeInfo
  | .mk info _ => info

/-- The outermost layer. -/
def form : Node → Form Node
  | .mk _ form => form

/-- The expression yields one value. -/
def isScalar (n : Node) : Bool := n.info.isScalar

/-- The canonical text. -/
def source (n : Node) : String := n.info.source

/-- The parts in the order in which they are evaluated. -/
def children (n : Node) : List Node := n.form.children

variable {α : Type}

mutual

/-- What a rule for one layer makes of a node. The rule finds in each place the part
and what has been made of it. -/
def fold (rule : NodeInfo → Form (Node × α) → α) : Node → α
  | .mk info form => rule info (foldForm rule form)

/-- A layer with what has been made of its parts. -/
def foldForm (rule : NodeInfo → Form (Node × α) → α) : Form Node → Form (Node × α)
  | .constant value => .constant value
  | .parameter name => .parameter name
  | .documents => .documents
  | .document entries => .document (foldEntries rule entries)
  | .array items => .array (foldList rule items)
  | .path root steps => .path root (foldSteps rule steps)
  | .map source selector => .map (source, fold rule source) (selector, fold rule selector)
  | .filter source predicate =>
    .filter (source, fold rule source) (predicate, fold rule predicate)
  | .sort source key order =>
    .sort (source, fold rule source) (key, fold rule key) (foldOption rule order)
  | .call function args => .call function (foldList rule args)
  | .generate generator site => .generate generator site
  | .binary op left right => .binary op (left, fold rule left) (right, fold rule right)
  | .quantified quantifier op left right =>
    .quantified quantifier op (left, fold rule left) (right, fold rule right)
  | .logic op left right => .logic op (left, fold rule left) (right, fold rule right)
  | .conditional test ifTrue ifFalse =>
    .conditional (test, fold rule test) (ifTrue, fold rule ifTrue) (ifFalse, fold rule ifFalse)

/-- Parts with what has been made of them. -/
def foldList (rule : NodeInfo → Form (Node × α) → α) : List Node → List (Node × α)
  | [] => []
  | part :: rest => (part, fold rule part) :: foldList rule rest

/-- Named parts with what has been made of them. -/
def foldEntries (rule : NodeInfo → Form (Node × α) → α) :
    List (String × Node) → List (String × Node × α)
  | [] => []
  | (name, part) :: rest => (name, part, fold rule part) :: foldEntries rule rest

/-- Steps with what has been made of their parts. -/
def foldSteps (rule : NodeInfo → Form (Node × α) → α) :
    List (PathStep Node) → List (PathStep (Node × α))
  | [] => []
  | .member name :: rest => .member name :: foldSteps rule rest
  | .index place :: rest => .index place :: foldSteps rule rest
  | .indexOf part :: rest => .indexOf (part, fold rule part) :: foldSteps rule rest
  | .all :: rest => .all :: foldSteps rule rest
  | .filter part :: rest => .filter (part, fold rule part) :: foldSteps rule rest
  | .items :: rest => .items :: foldSteps rule rest

/-- A part that may be missing, with what has been made of it. -/
def foldOption (rule : NodeInfo → Form (Node × α) → α) : Option Node → Option (Node × α)
  | none => none
  | some part => some (part, fold rule part)

end

section

variable (rule : NodeInfo → Form (Node × α) → α)

theorem foldList_eq (parts : List Node) :
    foldList rule parts = parts.map fun n => (n, fold rule n) := by
  induction parts with
  | nil => rfl
  | cons part rest ih => simp [foldList, ih]

theorem foldEntries_eq (entries : List (String × Node)) :
    foldEntries rule entries = entries.map fun (name, n) => (name, n, fold rule n) := by
  induction entries with
  | nil => rfl
  | cons entry rest ih => simp [foldEntries, ih]

theorem foldSteps_eq (steps : List (PathStep Node)) :
    foldSteps rule steps = steps.map (PathStep.map fun n => (n, fold rule n)) := by
  induction steps with
  | nil => rfl
  | cons step rest ih => cases step <;> simp [foldSteps, PathStep.map, ih]

theorem foldOption_eq (part : Option Node) :
    foldOption rule part = part.map fun n => (n, fold rule n) := by
  cases part <;> rfl

theorem foldForm_eq (form : Form Node) :
    foldForm rule form = form.mapParts fun n => (n, fold rule n) := by
  cases form <;>
    simp [foldForm, Form.mapParts, foldList_eq, foldEntries_eq, foldSteps_eq, foldOption_eq]

/-- A fold is the rule, applied to the layer with each part beside its own fold. -/
theorem fold_mk (info : NodeInfo) (form : Form Node) :
    fold rule (.mk info form) = rule info (form.mapParts fun n => (n, fold rule n)) := by
  rw [fold, foldForm_eq]

end

/-- The number of nodes of the tree. -/
def size : Node → Nat :=
  fold fun _ form => form.children.foldl (fun n part => n + part.2) 1

section

variable {P : Node → Prop}

mutual

/-- What holds of a node whenever it holds of its parts holds of every node. -/
theorem induction (step : ∀ n : Node, (∀ part ∈ n.children, P part) → P n) : ∀ n : Node, P n
  | .mk info form => step (.mk info form) (induction_form step form)

theorem induction_form (step : ∀ n : Node, (∀ part ∈ n.children, P part) → P n) :
    ∀ form : Form Node, ∀ part ∈ form.children, P part
  | .constant _ | .parameter _ | .documents | .generate _ _ => by simp [Form.children]
  | .document entries => induction_entries step entries
  | .array items => induction_list step items
  | .path _ steps => induction_steps step steps
  | .map a b | .filter a b | .binary _ a b | .quantified _ _ a b | .logic _ a b => by
    have := induction step a; have := induction step b
    simp_all [Form.children]
  | .sort a b c => by
    have := induction step a; have := induction step b; have := induction_option step c
    simp_all [Form.children]
  | .call _ args => induction_list step args
  | .conditional a b c => by
    have := induction step a; have := induction step b; have := induction step c
    simp_all [Form.children]

theorem induction_list (step : ∀ n : Node, (∀ part ∈ n.children, P part) → P n) :
    ∀ parts : List Node, ∀ part ∈ parts, P part
  | [] => by simp
  | n :: rest => by
    have := induction step n; have := induction_list step rest
    simp_all

theorem induction_entries (step : ∀ n : Node, (∀ part ∈ n.children, P part) → P n) :
    ∀ entries : List (String × Node), ∀ part ∈ entries.map Prod.snd, P part
  | [] => by simp
  | (_, n) :: rest =>
    List.forall_mem_cons.mpr ⟨induction step n, induction_entries step rest⟩

theorem induction_steps (step : ∀ n : Node, (∀ part ∈ n.children, P part) → P n) :
    ∀ steps : List (PathStep Node), ∀ part ∈ steps.flatMap PathStep.children, P part
  | [] => by simp
  | .member _ :: rest | .index _ :: rest | .all :: rest | .items :: rest =>
    induction_steps step rest
  | .indexOf n :: rest | .filter n :: rest =>
    List.forall_mem_cons.mpr ⟨induction step n, induction_steps step rest⟩

theorem induction_option (step : ∀ n : Node, (∀ part ∈ n.children, P part) → P n) :
    ∀ part : Option Node, ∀ n ∈ part, P n
  | none => by simp
  | some n => by
    have := induction step n
    simp_all

end

end

end Node

end DocQuery
