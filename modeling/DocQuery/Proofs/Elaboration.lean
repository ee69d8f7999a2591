import DocQuery.Parser.Term
import DocQuery.Proofs.Precedence
import DocQuery.Proofs.Syntax
/-!
# DocQuery.Proofs.Elaboration

What a phrase stands for. In a scope it is a node, or nothing: where a number does not
fit, where there is no such function, or where a place asks for one value and the phrase
in it yields many (`Phrase.node`).

The rule for one layer (`Phrase.Layer.node`) is told what the parts stand for, whatever
these parts are. Well-formedness (`Phrase.WellFormed`) is only about which phrase may be
written where; a phrase may be well formed and still stand for nothing.
-/

namespace DocQuery

/-- The node of a number as it is written. -/
def numberNode? (negative isDouble : Bool) (text : String) : Option Node :=
  let signed := if negative then '-' :: text.toList else text.toList
  if isDouble then Parser.doubleNode? signed else Parser.intNode? signed

@[simp] theorem Node.type_compose (type : ExprType) (isScalar : Bool) (source : String)
    (form : Form Node) : (Node.compose type isScalar source form).info.type = type := rfl

/-- The word is a value of its own. -/
def isConstantWord (word : String) : Bool :=
  Text.sameName word "true" || Text.sameName word "false" || Text.sameName word "null"

/-- The word calls a function on sequences. -/
def isSequenceWord (word : String) : Bool :=
  Text.sameName word "MAP" || Text.sameName word "FILTER" || Text.sameName word "SORT"

namespace WrittenStep

variable {ν : Type}

/-- The step yields any number of values, by what is known of its part. -/
def isMany (isParameter : ν → Bool) : WrittenStep ν → Bool
  | .all => true
  | .part e => !isParameter e
  | _ => false

/-- The step is a field name behind a period. -/
def isMember : WrittenStep ν → Bool
  | .member _ => true
  | _ => false

end WrittenStep

namespace PathStart

/-- The steps may follow the beginning. -/
def Allows {ν : Type} (steps : List (WrittenStep ν)) : PathStart → Prop
  | .sigil _ none => steps.head?.any WrittenStep.isMember = false
  | .sigil _ (some _) => True
  | .bare name => isConstantWord name = false

/-- What the path starts from. -/
def root (scope : Scope) : PathStart → PathRoot
  | .sigil root _ => root
  | .bare _ => Parser.bareRoot scope

/-- The first field; the empty name if there is none. -/
def field : PathStart → String
  | .sigil _ none => ""
  | .sigil _ (some field) => field.name
  | .bare name => name

/-- The path that begins in this way. A first field with the empty name is no step. -/
def node (start : PathStart) (scope : Scope) (steps : List (PathStep Node)) : Node :=
  let named := !start.field.isEmpty
  let fields :=
    if named && (start.root scope = .document || scope = .source) then Fields.single start.field
    else Fields.empty
  Node.path fields (start.root scope) (if named then .member start.field :: steps else steps)

@[simp] theorem isScalar_node (start : PathStart) (scope : Scope) (steps : List (PathStep Node)) :
    (start.node scope steps).isScalar = !steps.any PathStep.isEnumerable := by
  unfold node
  extract_lets named fields
  change (!(if named then PathStep.member start.field :: steps else steps).any _) = _
  split <;> rfl

@[simp] theorem type_node (start : PathStart) (scope : Scope) (steps : List (PathStep Node)) :
    (start.node scope steps).info.type = .path := rfl

end PathStart

/-- The node of a call by name. -/
def callNode? (name : String) (site : Nat) (args : List Node) : Option Node :=
  match Callable.find? name args.length with
  | some (.builtin function) => some (Node.call function args)
  | some (.generator generator) => some (Node.generate generator site)
  | none => none

/-- The node of a call by name, a choice between two nodes included. -/
def applyNode? (name : String) (site : Nat) (args : List Node) : Option Node :=
  match args with
  | [test, ifTrue, ifFalse] =>
    if Text.sameName name "IIF" then
      if test.isScalar then some (Node.conditional test ifTrue ifFalse) else none
    else callNode? name site args
  | _ => callNode? name site args

/-- A number is one of 32 bits, one of 64 bits, or a finite floating-point number. -/
theorem numberNode_cases {negative isDouble : Bool} {text : String} {n : Node}
    (h : numberNode? negative isDouble text = some n) :
    (∃ i, n = Node.int32 i) ∨ (∃ i, n = Node.int64 i) ∨ ∃ x, n = Node.double x := by
  unfold numberNode? at h
  extract_lets signed at h
  split at h
  · simp only [Parser.doubleNode?, Option.bind_eq_bind, Option.bind_eq_some_iff] at h
    obtain ⟨x, -, _, -, h⟩ := h
    exact .inr (.inr ⟨x, (Option.some.inj h).symm⟩)
  · unfold Parser.intNode? at h
    split at h
    · exact .inl ⟨_, (Option.some.inj h).symm⟩
    · obtain ⟨i, -, rfl⟩ := Option.map_eq_some_iff.mp h
      exact .inr (.inl ⟨i, rfl⟩)

/-- A call is a choice between two nodes, a call of a function, or one of a generator. -/
theorem applyNode_cases {name : String} {site : Nat} {args : List Node} {n : Node}
    (h : applyNode? name site args = some n) :
    (∃ test ifTrue ifFalse, Text.sameName name "IIF" = true ∧ args = [test, ifTrue, ifFalse] ∧
        test.isScalar = true ∧ n = Node.conditional test ifTrue ifFalse) ∨
      (∃ f, Callable.find? name args.length = some (.builtin f) ∧ n = Node.call f args) ∨
      ∃ g, Callable.find? name args.length = some (.generator g) ∧ n = Node.generate g site := by
  -- Anything but a choice is looked up by its name and the number of its arguments.
  have hcall {args : List Node} (h : callNode? name site args = some n) :
      (∃ f, Callable.find? name args.length = some (.builtin f) ∧ n = Node.call f args) ∨
        ∃ g, Callable.find? name args.length = some (.generator g) ∧ n = Node.generate g site := by
    unfold callNode? at h
    split at h
    · rename_i f hf
      exact .inl ⟨f, hf, (Option.some.inj h).symm⟩
    · rename_i g hg
      exact .inr ⟨g, hg, (Option.some.inj h).symm⟩
    · cases h
  unfold applyNode? at h
  split at h
  · rename_i test ifTrue ifFalse
    split at h
    · rename_i hname
      split at h
      · rename_i hscalar
        exact .inl ⟨test, ifTrue, ifFalse, hname, rfl, hscalar, (Option.some.inj h).symm⟩
      · cases h
    · exact .inr (hcall h)
  · exact .inr (hcall h)

/-- What a name stands for has that name and takes that many arguments. -/
theorem Callable.find?_eq_some {name : String} {arity : Nat} {f : Callable}
    (h : Callable.find? name arity = some f) :
    f.signature.name = Text.upperName name ∧ f.signature.arity = arity := by
  have harity := List.find?_some h
  have hmem := List.mem_of_find?_eq_some h
  rw [named, List.mem_filter] at hmem
  exact ⟨of_decide_eq_true hmem.2, of_decide_eq_true harity⟩

namespace Phrase

variable {ν μ : Type}

/-! ### One layer -/

section

variable (isBounds : ν → Bool) (f : ν → Scope → Option Node)

/-- What parts stand for, one after the other. -/
def nodes (scope : Scope) : List ν → Option (List Node)
  | [] => some []
  | part :: rest => do return (← f part scope) :: (← nodes scope rest)

/-- What the value of an entry stands for. Without one, it is the field of its name. -/
def valueNode (scope : Scope) (key : EntryName) : Option ν → Option Node
  | some value => f value scope
  | none => some (Node.shorthand key.name)

/-- What entries stand for. A name that is taken is exchanged for a fresh one. -/
def entryNodes (scope : Scope) :
    List (EntryName × Option ν) → (others : List String) → (counter : Nat) →
      Option (List (String × Node))
  | [], _, _ => some []
  | (key, value) :: rest, others, counter => do
    let value ← valueNode f scope key value
    let (name, counter) := Parser.freshName key.name others key.name counter
    return (name, value.asScalar) :: (← entryNodes scope rest (others ++ [name]) counter)

/-- The step that a written one stands for. -/
def stepNode : WrittenStep ν → Option (PathStep Node)
  | .member field => some (.member field.name)
  | .place negative digits =>
    (Number.readInt32? (if negative then '-' :: digits.toList else digits.toList)).map
      fun n => .index n.toInt
  | .all => some .all
  | .part part =>
    (f part .current).map fun n => if n.info.type = .parameter then .indexOf n else .filter n

/-- What the steps of a path stand for. -/
def stepNodes : List (WrittenStep ν) → Option (List (PathStep Node))
  | [] => some []
  | step :: rest => do return (← stepNode f step) :: (← stepNodes rest)

/-- What stands behind an operator. Only bounds can stand behind one that asks for them. -/
def tailNodes (scope : Scope) : List (Operator × ν) → Option Precedence.Tail
  | [] => some []
  | (op, term) :: rest =>
    if op.isBetween && !isBounds term then none
    else do return (op, ← f term scope) :: (← tailNodes scope rest)

/-- The sequence and what is evaluated for each of its elements. -/
def sequenceNodes (scope : Scope) (source part : ν) : Option (Node × Node) := do
  let sequence := (← f source scope).asSequence
  let inner := if sequence.info.type = .source then Scope.source else Scope.current
  return (sequence, ← f part inner)

/-- What the order of a sort stands for. It has to yield one value. -/
def orderNode (scope : Scope) : Option ν → Option (Option Node)
  | none => some none
  | some order => do
    let order ← f order scope
    if order.isScalar then some (some order) else none

/-- What a layer stands for, given what its parts do. -/
def Layer.node (scope : Scope) : Layer ν → Option Node
  | .number negative isDouble text => numberNode? negative isDouble text
  | .truth b => some (Node.boolean b)
  | .null => some Node.null
  | .string s => some (Node.string s)
  | .documents none => some Node.documents
  | .documents (some selector) => (f selector .source).map (Node.map Node.documents)
  | .document entries => (entryNodes f scope entries [] 1).map Node.document
  | .array items => (nodes f scope items).map fun items => Node.array (items.map Node.asScalar)
  | .parameter _ name => some (Node.parameter name)
  | .path start steps none => (stepNodes f steps).map (start.node scope)
  | .path start steps (some behind) => do
    let path := start.node scope (← stepNodes f steps)
    return Node.map path (← f behind .current)
  | .map source selector => do
    let (sequence, selector) ← sequenceNodes f scope source selector
    return Node.map sequence selector
  | .filter source predicate => do
    let (sequence, predicate) ← sequenceNodes f scope source predicate
    return Node.filter sequence predicate
  | .sort source key order => do
    let (sequence, key) ← sequenceNodes f scope source key
    return Node.sort sequence key (← orderNode f scope order)
  | .call name site args => do applyNode? name site (← nodes f scope args)
  | .parens inner => (f inner scope).map Node.parenthesized
  | .joined first tail => do
    let first ← f first scope
    let tail ← tailNodes isBounds f scope tail
    (Precedence.reduce first tail).toOption
  | .bounds lower upper => do
    let lower ← f lower scope
    let upper ← f upper scope
    if lower.isScalar && upper.isScalar then some (Node.bounds lower upper) else none

end

/-! ### What a layer stands for, taken apart

Whatever a layer stands for, its parts stand for something, and the layer puts that together. An
equivalence for each layer that can fail, so that no proof has to open the rules again. -/

section

variable {isBounds : ν → Bool} {f : ν → Scope → Option Node} {scope : Scope} {n : Node}

theorem nodes_cons_eq_some {part : ν} {rest : List ν} {ns : List Node} :
    nodes f scope (part :: rest) = some ns ↔
      ∃ n, f part scope = some n ∧ ∃ ns', nodes f scope rest = some ns' ∧ n :: ns' = ns := by
  simp only [nodes, Option.bind_eq_bind, Option.bind_eq_some_iff, Option.pure_def,
    Option.some.injEq]

/-- An entry whose name is taken has a fresh one, and counts with it for those behind. -/
theorem entryNodes_cons_eq_some {entry : EntryName × Option ν} {rest : List (EntryName × Option ν)}
    {others : List String} {counter : Nat} {list : List (String × Node)} :
    entryNodes f scope (entry :: rest) others counter = some list ↔
      ∃ n, valueNode f scope entry.1 entry.2 = some n ∧ ∃ name next,
        Parser.freshName entry.1.name others entry.1.name counter = (name, next) ∧
        ∃ list', entryNodes f scope rest (others ++ [name]) next = some list' ∧
          (name, n.asScalar) :: list' = list := by
  simp only [entryNodes, Option.bind_eq_bind, Option.bind_eq_some_iff, Option.pure_def,
    Option.some.injEq]
  constructor
  · rintro ⟨n, hn, list', hlist, rfl⟩
    exact ⟨n, hn, _, _, rfl, list', hlist, rfl⟩
  · rintro ⟨n, hn, name, next, hname, list', hlist, rfl⟩
    rw [hname]
    exact ⟨n, hn, list', hlist, rfl⟩

theorem stepNodes_cons_eq_some {w : WrittenStep ν} {rest : List (WrittenStep ν)}
    {steps : List (PathStep Node)} :
    stepNodes f (w :: rest) = some steps ↔
      ∃ step, stepNode f w = some step ∧
        ∃ steps', stepNodes f rest = some steps' ∧ step :: steps' = steps := by
  simp only [stepNodes, Option.bind_eq_bind, Option.bind_eq_some_iff, Option.pure_def,
    Option.some.injEq]

/-- Behind an operator that asks for bounds there are bounds, if the row stands for anything. -/
theorem tailNodes_cons_eq_some {op : Operator} {part : ν} {rest : List (Operator × ν)}
    {tail : Precedence.Tail} :
    tailNodes isBounds f scope ((op, part) :: rest) = some tail ↔
      (op.isBetween = true → isBounds part = true) ∧ ∃ n, f part scope = some n ∧
        ∃ tail', tailNodes isBounds f scope rest = some tail' ∧ (op, n) :: tail' = tail := by
  rw [tailNodes]
  split
  · rename_i hno
    simp_all
  · rename_i hno
    simp only [Option.bind_eq_bind, Option.bind_eq_some_iff, Option.pure_def, Option.some.injEq]
    simp_all

/-- What is evaluated for the elements is read in the scope of the documents if the sequence is made
of them. -/
theorem sequenceNodes_eq_some {source part : ν} {a b : Node} :
    sequenceNodes f scope source part = some (a, b) ↔
      ∃ k, f source scope = some k ∧
        f part (if k.asSequence.info.type = .source then .source else .current) = some b ∧
          k.asSequence = a := by
  simp only [sequenceNodes, Option.bind_eq_bind, Option.bind_eq_some_iff, Option.pure_def,
    Option.some.injEq, Prod.mk.injEq]
  constructor
  · rintro ⟨k, hk, m, hm, ha, rfl⟩
    exact ⟨k, hk, hm, ha⟩
  · rintro ⟨k, hk, hb, ha⟩
    exact ⟨k, hk, b, hb, ha, rfl⟩

theorem orderNode_some_eq_some {order : ν} {o : Option Node} :
    orderNode f scope (some order) = some o ↔
      ∃ n, f order scope = some n ∧ n.isScalar = true ∧ some n = o := by
  simp only [orderNode, Option.bind_eq_bind, Option.bind_eq_some_iff,
    Option.ite_none_right_eq_some, Option.some.injEq]

theorem Layer.node_behind_eq_some {start : PathStart} {ws : List (WrittenStep ν)} {behind : ν} :
    Layer.node isBounds f scope (.path start ws (some behind)) = some n ↔
      ∃ steps, stepNodes f ws = some steps ∧ ∃ m, f behind .current = some m ∧
        Node.map (start.node scope steps) m = n := by
  simp only [Layer.node, Option.bind_eq_bind, Option.bind_eq_some_iff, Option.pure_def,
    Option.some.injEq]

theorem Layer.node_map_eq_some {source part : ν} :
    Layer.node isBounds f scope (.map source part) = some n ↔
      ∃ a b, sequenceNodes f scope source part = some (a, b) ∧ Node.map a b = n := by
  simp only [Layer.node, Option.bind_eq_bind, Option.bind_eq_some_iff, Option.pure_def,
    Option.some.injEq, Prod.exists]

theorem Layer.node_filter_eq_some {source part : ν} :
    Layer.node isBounds f scope (.filter source part) = some n ↔
      ∃ a b, sequenceNodes f scope source part = some (a, b) ∧ Node.filter a b = n := by
  simp only [Layer.node, Option.bind_eq_bind, Option.bind_eq_some_iff, Option.pure_def,
    Option.some.injEq, Prod.exists]

theorem Layer.node_sort_eq_some {source key : ν} {order : Option ν} :
    Layer.node isBounds f scope (.sort source key order) = some n ↔
      ∃ a b, sequenceNodes f scope source key = some (a, b) ∧
        ∃ o, orderNode f scope order = some o ∧ Node.sort a b o = n := by
  simp only [Layer.node, Option.bind_eq_bind, Option.bind_eq_some_iff, Option.pure_def,
    Option.some.injEq, Prod.exists]

theorem Layer.node_call_eq_some {name : String} {site : Nat} {args : List ν} :
    Layer.node isBounds f scope (.call name site args) = some n ↔
      ∃ ns, nodes f scope args = some ns ∧ applyNode? name site ns = some n := by
  simp only [Layer.node, Option.bind_eq_bind, Option.bind_eq_some_iff]

theorem Layer.node_joined_eq_some {first : ν} {row : List (Operator × ν)} :
    Layer.node isBounds f scope (.joined first row) = some n ↔
      ∃ m, f first scope = some m ∧ ∃ tail, tailNodes isBounds f scope row = some tail ∧
        (Precedence.reduce m tail).toOption = some n := by
  simp only [Layer.node, Option.bind_eq_bind, Option.bind_eq_some_iff]

theorem Layer.node_bounds_eq_some {lower upper : ν} :
    Layer.node isBounds f scope (.bounds lower upper) = some n ↔
      ∃ l, f lower scope = some l ∧ ∃ u, f upper scope = some u ∧
        (l.isScalar = true ∧ u.isScalar = true) ∧ Node.bounds l u = n := by
  simp only [Layer.node, Option.bind_eq_bind, Option.bind_eq_some_iff,
    Option.ite_none_right_eq_some, Option.some.injEq, Bool.and_eq_true]

end

/-! ### Parts under another name -/

section

variable (isBounds : μ → Bool) (f : μ → Scope → Option Node) (g : ν → μ)

/-- What lists of parts stand for does not depend on what stands for the parts, but only on what is
asked of it. -/
theorem nodes_map (scope : Scope) (parts : List ν) :
    nodes f scope (parts.map g) = nodes (fun e => f (g e)) scope parts := by
  induction parts with
  | nil => rfl
  | cons part rest ih => simp only [List.map_cons, nodes, ih]

theorem entryNodes_map (scope : Scope) (entries : List (EntryName × Option ν))
    (others : List String) (counter : Nat) :
    entryNodes f scope (entries.map fun (key, value) => (key, value.map g)) others counter =
      entryNodes (fun e => f (g e)) scope entries others counter := by
  induction entries generalizing others counter with
  | nil => rfl
  | cons entry rest ih =>
      obtain ⟨key, value⟩ := entry
      simp only [List.map_cons, entryNodes, ih]
      cases value <;> rfl

theorem stepNodes_map (steps : List (WrittenStep ν)) :
    stepNodes f (steps.map (WrittenStep.map g)) = stepNodes (fun e => f (g e)) steps := by
  induction steps with
  | nil => rfl
  | cons step rest ih =>
      simp only [List.map_cons, stepNodes, ih]
      cases step <;> rfl

theorem tailNodes_map (scope : Scope) (tail : List (Operator × ν)) :
    tailNodes isBounds f scope (tail.map fun (op, term) => (op, g term)) =
      tailNodes (fun e => isBounds (g e)) (fun e => f (g e)) scope tail := by
  induction tail with
  | nil => rfl
  | cons entry rest ih => simp only [List.map_cons, tailNodes, ih]

/-- What a layer stands for comes from what its parts do, however these are given. -/
theorem Layer.node_mapParts (scope : Scope) (layer : Layer ν) :
    Layer.node isBounds f scope (layer.mapParts g) =
      Layer.node (fun e => isBounds (g e)) (fun e => f (g e)) scope layer := by
  cases layer with
  | documents selector => cases selector <;> rfl
  | document entries => simp only [mapParts, node, entryNodes_map]
  | array items => simp only [mapParts, node, nodes_map]
  | path start steps behind =>
      cases behind <;> simp only [mapParts, node, stepNodes_map, Option.map_none, Option.map_some]
  | sort source key order => cases order <;> rfl
  | call name site args => simp only [mapParts, node, nodes_map]
  | joined first tail => simp only [mapParts, node, tailNodes_map]
  | _ => rfl

end

/-! ### Classes of phrases -/

/-- The phrase is a pair of bounds. -/
def isBounds : Phrase → Bool
  | .mk (.bounds _ _) => true
  | _ => false

/-- The phrase is a term. -/
def isTerm : Phrase → Bool
  | .mk (.bounds _ _) | .mk (.joined _ _) => false
  | _ => true

theorem isBounds_of_isTerm {e : Phrase} (h : e.isTerm = true) : e.isBounds = false := by
  obtain ⟨layer⟩ := e
  cases layer with
  | bounds lower upper => cases h
  | _ => rfl

/-- The phrase is a parameter, perhaps in parentheses. -/
def isParameter : Phrase → Bool :=
  fold fun
    | .parameter _ _ => true
    | .parens inner => inner.2
    | _ => false

/-- The phrase does not begin like a place between brackets: with a whole number, a minus
sign or an asterisk. -/
def isPlain : Phrase → Bool :=
  fold fun
    | .number negative isDouble _ => !negative && isDouble
    | .documents _ => false
    | .joined first _ | .bounds first _ => first.2
    | _ => true

/-- Behind an operator that asks for bounds stand bounds, or else a quantifier follows: what
stands there cannot be read as the first of two bounds. -/
def Bounded : List (Operator × Phrase) → Prop
  | [] => True
  | (op, e) :: rest =>
    (op.isBetween = true → e.isBounds = true ∨
      rest.head?.any (fun next => Precedence.isQuantified next.1) = true) ∧ Bounded rest

/-- The parts of the layer may be written where they stand. -/
def Layer.WellFormed : Layer Phrase → Prop
  | .documents selector => ∀ e ∈ selector, e.isTerm = true
  | .document entries => ∀ entry ∈ entries, ∀ e ∈ entry.2, e.isBounds = false
  | .array items => ∀ e ∈ items, e.isBounds = false
  | .path start steps behind =>
    start.Allows steps ∧
    (∀ e, .part e ∈ steps → e.isBounds = false ∧ e.isPlain = true) ∧
    steps.dropLast.any (WrittenStep.isMany isParameter) = false ∧
    ∀ e ∈ behind, e.isTerm = true ∧ steps.getLast?.any (WrittenStep.isMany isParameter) = true
  | .map source part | .filter source part => source.isTerm = true ∧ part.isBounds = false
  | .sort source key order =>
    source.isTerm = true ∧ key.isBounds = false ∧ ∀ e ∈ order, e.isBounds = false
  | .call name _ args =>
    isConstantWord name = false ∧ isSequenceWord name = false ∧ ∀ e ∈ args, e.isBounds = false
  | .parens inner => inner.isBounds = false
  | .joined first tail =>
    first.isTerm = true ∧ tail ≠ [] ∧
      (∀ entry ∈ tail, entry.2.isTerm = true ∨ entry.1.isBetween = true ∧ entry.2.isBounds = true) ∧
      Bounded tail
  | .bounds lower upper => lower.isTerm = true ∧ upper.isTerm = true
  | _ => True

/-- Every part of the phrase may be written where it stands. -/
inductive WellFormed : Phrase → Prop where
  | mk {layer : Layer Phrase} (h : layer.WellFormed)
      (hparts : ∀ part ∈ layer.children, part.WellFormed) : WellFormed (.mk layer)

theorem WellFormed.layer {e : Phrase} (h : e.WellFormed) : e.layer.WellFormed := by
  cases h with
  | mk h _ => exact h

theorem WellFormed.part {e part : Phrase} (h : e.WellFormed) (hpart : part ∈ e.children) :
    part.WellFormed := by
  cases h with
  | mk _ hparts => exact hparts part hpart

/-- Every layer of the phrase is of this kind. -/
inductive Everywhere (P : Layer Phrase → Prop) : Phrase → Prop where
  | mk {layer : Layer Phrase} (h : P layer)
      (hparts : ∀ part ∈ layer.children, part.Everywhere P) : Everywhere P (.mk layer)

theorem Everywhere.layer {P : Layer Phrase → Prop} {e : Phrase} (h : e.Everywhere P) :
    P e.layer := by
  cases h with
  | mk h _ => exact h

theorem Everywhere.part {P : Layer Phrase → Prop} {e part : Phrase} (h : e.Everywhere P)
    (hpart : part ∈ e.children) : part.Everywhere P := by
  cases h with
  | mk _ hparts => exact hparts part hpart

theorem Everywhere.imp {P Q : Layer Phrase → Prop} (hPQ : ∀ layer, P layer → Q layer) {e : Phrase}
    (h : e.Everywhere P) : e.Everywhere Q := by
  induction h with
  | mk h _ ih => exact .mk (hPQ _ h) ih

theorem Everywhere.of_forall {P : Layer Phrase → Prop} (h : ∀ layer, P layer) (e : Phrase) :
    e.Everywhere P := by
  induction e using Phrase.induction with
  | step e ih =>
      obtain ⟨layer⟩ := e
      exact .mk (h layer) ih

/-! ### Meaning -/

/-- The node that the phrase stands for in a scope, if it stands for one. -/
def node (e : Phrase) (scope : Scope) : Option Node :=
  e.fold (fun layer scope => Layer.node (fun part => part.1.isBounds) Prod.snd scope layer) scope

/-- A phrase stands for what its layer does, given what its parts stand for. -/
theorem node_eq (e : Phrase) (scope : Scope) :
    e.node scope = Layer.node isBounds node scope e.layer := by
  obtain ⟨layer⟩ := e
  rw [node, fold_mk, Layer.node_mapParts]
  rfl

theorem isParameter_eq (e : Phrase) :
    e.isParameter = match e.layer with
      | .parameter _ _ => true
      | .parens inner => inner.isParameter
      | _ => false := by
  obtain ⟨layer⟩ := e
  rw [isParameter, fold_mk]
  cases layer <;> rfl

theorem isPlain_eq (e : Phrase) :
    e.isPlain = match e.layer with
      | .number negative isDouble _ => !negative && isDouble
      | .documents _ => false
      | .joined first _ | .bounds first _ => first.isPlain
      | _ => true := by
  obtain ⟨layer⟩ := e
  rw [isPlain, fold_mk]
  cases layer <;> rfl

/-! ### Parameters -/

/-- A row with operators is one with operators when it has been read. -/
theorem tailNodes_ne_nil {isBounds : ν → Bool} {f : ν → Scope → Option Node} {scope : Scope}
    {row : List (Operator × ν)} {tail : Precedence.Tail}
    (h : tailNodes isBounds f scope row = some tail) (hrow : row ≠ []) : tail ≠ [] := by
  cases row with
  | nil => exact absurd rfl hrow
  | cons entry rest =>
      obtain ⟨-, _, -, _, -, rfl⟩ := tailNodes_cons_eq_some.mp h
      exact List.cons_ne_nil _ _

/-- A phrase stands for a parameter only if it is one. -/
theorem type_eq_parameter {e : Phrase} (hwf : e.WellFormed) {scope : Scope} {n : Node}
    (h : e.node scope = some n) : n.info.type = .parameter ↔ e.isParameter = true := by
  induction e using Phrase.induction generalizing n with
  | step e ih =>
      rw [node_eq] at h
      rw [isParameter_eq]
      have hlayer := hwf.layer
      obtain ⟨layer⟩ := e
      -- Parentheses pass the type on, so the induction is for them; every other layer has its own.
      cases layer with
      | number negative isDouble text =>
          rcases numberNode_cases h with ⟨i, rfl⟩ | ⟨i, rfl⟩ | ⟨x, rfl⟩
          · simp [layer, Node.int32, Node.constant]
          · simp [layer, Node.int64, Node.constant]
          · simp [layer, Node.double, Node.constant]
      | truth b =>
          cases h
          simp [layer, Node.boolean, Node.constant]
      | null =>
          cases h
          simp [layer, Node.null, Node.constant]
      | string s =>
          cases h
          simp [layer, Node.string, Node.constant]
      | parameter isInt name =>
          cases h
          exact iff_of_true rfl rfl
      | documents selector =>
          cases selector with
          | none =>
              cases h
              simp [layer, Node.documents, Node.info]
          | some selector =>
              obtain ⟨_, -, rfl⟩ := Option.map_eq_some_iff.mp h
              simp [layer, Node.map]
      | document entries =>
          obtain ⟨_, -, rfl⟩ := Option.map_eq_some_iff.mp h
          simp [layer, Node.document]
      | array items =>
          obtain ⟨_, -, rfl⟩ := Option.map_eq_some_iff.mp h
          simp [layer, Node.array]
      | path start steps behind =>
          cases behind with
          | none =>
              obtain ⟨_, -, rfl⟩ := Option.map_eq_some_iff.mp h
              simp [layer]
          | some behind =>
              obtain ⟨_, -, _, -, rfl⟩ := Layer.node_behind_eq_some.mp h
              simp [layer, Node.map]
      | map source part =>
          obtain ⟨_, _, -, rfl⟩ := Layer.node_map_eq_some.mp h
          simp [layer, Node.map]
      | filter source part =>
          obtain ⟨_, _, -, rfl⟩ := Layer.node_filter_eq_some.mp h
          simp [layer, Node.filter]
      | sort source key order =>
          obtain ⟨_, _, -, _, -, rfl⟩ := Layer.node_sort_eq_some.mp h
          simp [layer, Node.sort]
      | call name site args =>
          obtain ⟨args, -, h⟩ := Layer.node_call_eq_some.mp h
          have htype : n.info.type = .call := by
            rcases applyNode_cases h with ⟨_, _, _, -, -, -, rfl⟩ | ⟨f, -, rfl⟩ | ⟨g, -, rfl⟩
            · unfold Node.conditional
              dsimp only
              split <;> rfl
            · rfl
            · rfl
          simp [layer, htype]
      | parens inner =>
          obtain ⟨part, hpart, rfl⟩ := Option.map_eq_some_iff.mp h
          have hinner : inner ∈ (mk (.parens inner)).children := List.mem_singleton_self inner
          have htype := ih inner hinner (hwf.part hinner) hpart
          cases part
          exact htype
      -- A row has at least one operator, and the one that is joined last gives it its type.
      | joined first tail =>
          obtain ⟨_, -, tail', htail, h⟩ := Layer.node_joined_eq_some.mp h
          obtain ⟨op, left, right, hcombine⟩ := Precedence.combine_of_reduce
            (tailNodes_ne_nil htail hlayer.2.1) (Precedence.toOption_eq_some.mp h)
          obtain ⟨-, -, rfl⟩ := Precedence.combine_eq_ok.mp hcombine
          cases op <;> simp [layer, Node.operation]
      | bounds lower upper =>
          obtain ⟨_, -, _, -, -, rfl⟩ := Layer.node_bounds_eq_some.mp h
          simp [layer, Node.bounds]

/-! ### How many values a path yields -/

/-- A step yields as many values as the one that is written. -/
theorem isEnumerable_stepNode {w : WrittenStep Phrase} (hwf : ∀ e, w = .part e → e.WellFormed)
    {step : PathStep Node} (h : stepNode node w = some step) :
    step.isEnumerable = w.isMany isParameter := by
  cases w with
  | member field | all =>
      cases h
      rfl
  | place negative digits =>
      obtain ⟨n, -, rfl⟩ := Option.map_eq_some_iff.mp h
      rfl
  | part e =>
      obtain ⟨n, hn, rfl⟩ := Option.map_eq_some_iff.mp h
      have htype := type_eq_parameter (hwf e rfl) hn
      cases hparameter : e.isParameter with
      | true => simp [htype.mpr hparameter, WrittenStep.isMany, hparameter, PathStep.isEnumerable]
      | false =>
          have hno : n.info.type ≠ .parameter := by simp [htype, hparameter]
          simp [hno, WrittenStep.isMany, hparameter, PathStep.isEnumerable]

/-- Step by step, the same ones yield many values. -/
theorem map_isEnumerable_stepNodes {ws : List (WrittenStep Phrase)}
    (hwf : ∀ e, .part e ∈ ws → e.WellFormed) {steps : List (PathStep Node)}
    (h : stepNodes node ws = some steps) :
    steps.map PathStep.isEnumerable = ws.map (WrittenStep.isMany isParameter) := by
  induction ws generalizing steps with
  | nil =>
      cases h
      rfl
  | cons w ws ih =>
      obtain ⟨step, hstep, rest, hrest, rfl⟩ := stepNodes_cons_eq_some.mp h
      rw [List.map_cons, List.map_cons,
        isEnumerable_stepNode (fun e he => hwf e (by simp [he])) hstep,
        ih (fun e he => hwf e (List.mem_cons_of_mem _ he)) hrest]

theorem any_eq_any_id {α : Type} (p : α → Bool) (list : List α) :
    list.any p = (list.map p).any id := by
  rw [List.any_map]
  rfl

theorem any_isEnumerable_stepNodes {ws : List (WrittenStep Phrase)}
    (hwf : ∀ e, .part e ∈ ws → e.WellFormed) {steps : List (PathStep Node)}
    (h : stepNodes node ws = some steps) :
    steps.any PathStep.isEnumerable = ws.any (WrittenStep.isMany isParameter) :=
  calc steps.any PathStep.isEnumerable
      = (steps.map PathStep.isEnumerable).any id := any_eq_any_id ..
    _ = (ws.map (WrittenStep.isMany isParameter)).any id := by
      rw [map_isEnumerable_stepNodes hwf h]
    _ = ws.any (WrittenStep.isMany isParameter) := (any_eq_any_id ..).symm

theorem any_of_any_getLast? {α : Type} {p : α → Bool} {list : List α}
    (h : list.getLast?.any p = true) : list.any p = true := by
  obtain ⟨a, ha, hp⟩ := (Option.any_eq_true ..).mp h
  exact List.any_eq_true.mpr ⟨a, List.mem_of_getLast? ha, hp⟩

/-- In front of a list, an element without the property changes nothing of what the last one is. -/
theorem any_getLast?_cons {α : Type} {p : α → Bool} {a : α} (ha : p a = false) (list : List α) :
    (a :: list).getLast?.any p = list.getLast?.any p := by
  cases list with
  | nil => simp [ha]
  | cons b rest => rw [List.getLast?_cons_cons]

/-- Nor does it change what those in front of the last one are. -/
theorem any_dropLast_cons {α : Type} {p : α → Bool} {a : α} (ha : p a = false) (list : List α) :
    (a :: list).dropLast.any p = list.dropLast.any p := by
  cases list with
  | nil => rfl
  | cons b rest => rw [List.dropLast_cons_cons, List.any_cons, ha, Bool.false_or]

/-- If only the last element may have the property, nothing stands behind one that has it. -/
theorem eq_nil_of_any_dropLast {α : Type} {p : α → Bool} {a : α} (ha : p a = true) {list : List α}
    (h : (a :: list).dropLast.any p = false) : list = [] := by
  cases list with
  | nil => rfl
  | cons b rest =>
      rw [List.dropLast_cons_cons, List.any_cons, ha, Bool.true_or] at h
      cases h

/-- If no step but the last one may yield any number of values, that one decides. -/
theorem any_isEnumerable_of_single {ws : List (WrittenStep Phrase)}
    (hwf : ∀ e, .part e ∈ ws → e.WellFormed)
    (hsingle : ws.dropLast.any (WrittenStep.isMany isParameter) = false)
    {steps : List (PathStep Node)} (h : stepNodes node ws = some steps) :
    steps.any PathStep.isEnumerable = ws.getLast?.any (WrittenStep.isMany isParameter) := by
  rw [any_isEnumerable_stepNodes hwf h]
  rcases List.eq_nil_or_concat ws with rfl | ⟨front, last, rfl⟩
  · rfl
  · rw [List.concat_eq_append] at hsingle ⊢
    rw [List.dropLast_concat] at hsingle
    rw [List.any_append, hsingle, Bool.false_or, List.getLast?_concat, List.any_cons,
      List.any_nil, Bool.or_false]
    rfl

end Phrase

end DocQuery
