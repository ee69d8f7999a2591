import DocQuery.Node
/-!
# DocQuery.Proofs.Syntax

Expressions as they are written. A `Phrase` is a tree of what stands in a text: bare
names and sigils, the quotes or not around a name, operators in a row, parentheses. What
it stands for depends on the scope and may be nothing at all; that is said elsewhere.

A phrase is built from layers as nodes are, and functions on phrases are folds
(`Phrase.fold`, `Phrase.fold_mk`). There are three classes of phrases: terms, rows of
terms joined by operators, and the two bounds behind `BETWEEN`. Which class may stand
where is what `Phrase.Layer.WellFormed` says.
-/

namespace DocQuery

/-- The name of a field behind a period. -/
inductive FieldName where
  | word (name : String)
  /-- Between brackets, as a string. -/
  | quoted (name : String)
deriving DecidableEq, Repr

/-- The field that is named. -/
def FieldName.name : FieldName → String
  | .word name | .quoted name => name

/-- The name of an entry as it is written. -/
inductive EntryName where
  | word (name : String)
  | int (name : String)
  | string (name : String)
deriving DecidableEq, Repr

/-- The name that is written. -/
def EntryName.name : EntryName → String
  | .word name | .int name | .string name => name

/-- How a path begins. -/
inductive PathStart where
  | sigil (root : PathRoot) (field : Option FieldName)
  | bare (name : String)
deriving DecidableEq, Repr

/-- A step of a path as it is written. -/
inductive WrittenStep (ν : Type) where
  | member (field : FieldName)
  | place (negative : Bool) (digits : String)
  | all
  /-- A condition, or a place that is a parameter. -/
  | part (part : ν)

namespace WrittenStep

variable {ν μ : Type}

/-- The step with something else in the place of its part. -/
def map (f : ν → μ) : WrittenStep ν → WrittenStep μ
  | .member field => .member field
  | .place negative digits => .place negative digits
  | .all => .all
  | .part e => .part (f e)

/-- The part of the step. -/
def children : WrittenStep ν → List ν
  | .part e => [e]
  | _ => []

end WrittenStep

namespace Phrase

/-- One layer of a phrase. -/
inductive Layer (ν : Type) where
  | number (negative isDouble : Bool) (text : String)
  | truth (b : Bool)
  | null
  | string (s : String)
  /-- The documents, or what is taken from each of them. -/
  | documents (selector : Option ν)
  /-- A document. An entry without a value stands for the field of its name. -/
  | document (entries : List (EntryName × Option ν))
  | array (items : List ν)
  | parameter (isInt : Bool) (name : String)
  /-- A path, and what is taken from each of its values. -/
  | path (start : PathStart) (steps : List (WrittenStep ν)) (behind : Option ν)
  | map (source selector : ν)
  | filter (source predicate : ν)
  | sort (source key : ν) (order : Option ν)
  /-- A call of what is named at this offset. -/
  | call (name : String) (site : Nat) (args : List ν)
  | parens (inner : ν)
  /-- Terms joined by operators. -/
  | joined (first : ν) (tail : List (Operator × ν))
  /-- The bounds of a range. -/
  | bounds (lower upper : ν)

namespace Layer

variable {ν μ : Type}

/-- The layer with something else in the places of its parts. -/
def mapParts (f : ν → μ) : Layer ν → Layer μ
  | .number negative isDouble text => .number negative isDouble text
  | .truth b => .truth b
  | .null => .null
  | .string s => .string s
  | .documents selector => .documents (selector.map f)
  | .document entries => .document (entries.map fun (key, value) => (key, value.map f))
  | .array items => .array (items.map f)
  | .parameter isInt name => .parameter isInt name
  | .path start steps behind => .path start (steps.map (WrittenStep.map f)) (behind.map f)
  | .map source selector => .map (f source) (f selector)
  | .filter source predicate => .filter (f source) (f predicate)
  | .sort source key order => .sort (f source) (f key) (order.map f)
  | .call name site args => .call name site (args.map f)
  | .parens inner => .parens (f inner)
  | .joined first tail => .joined (f first) (tail.map fun (op, term) => (op, f term))
  | .bounds lower upper => .bounds (f lower) (f upper)

/-- The parts in the order in which they are written. -/
def children : Layer ν → List ν
  | .number _ _ _ | .truth _ | .null | .string _ | .parameter _ _ => []
  | .documents selector => selector.toList
  | .document entries => entries.flatMap fun entry => entry.2.toList
  | .array items => items
  | .path _ steps behind => steps.flatMap WrittenStep.children ++ behind.toList
  | .map source selector => [source, selector]
  | .filter source predicate => [source, predicate]
  | .sort source key order => source :: key :: order.toList
  | .call _ _ args => args
  | .parens inner => [inner]
  | .joined first tail => first :: tail.map Prod.snd
  | .bounds lower upper => [lower, upper]

end Layer

end Phrase

/-- An expression as it is written. -/
inductive Phrase where
  | mk (layer : Phrase.Layer Phrase)

namespace Phrase

/-- The outermost layer. -/
def layer : Phrase → Layer Phrase
  | .mk layer => layer

/-- The parts in the order in which they are written. -/
def children (e : Phrase) : List Phrase := e.layer.children

variable {α : Type}

mutual

/-- What a rule for one layer makes of a phrase. The rule finds in each place the part and
what has been made of it. -/
def fold (rule : Layer (Phrase × α) → α) : Phrase → α
  | .mk layer => rule (foldLayer rule layer)

/-- A layer with what has been made of its parts. -/
def foldLayer (rule : Layer (Phrase × α) → α) : Layer Phrase → Layer (Phrase × α)
  | .number negative isDouble text => .number negative isDouble text
  | .truth b => .truth b
  | .null => .null
  | .string s => .string s
  | .documents selector => .documents (foldOption rule selector)
  | .document entries => .document (foldEntries rule entries)
  | .array items => .array (foldList rule items)
  | .parameter isInt name => .parameter isInt name
  | .path start steps behind => .path start (foldSteps rule steps) (foldOption rule behind)
  | .map source selector => .map (source, fold rule source) (selector, fold rule selector)
  | .filter source predicate =>
    .filter (source, fold rule source) (predicate, fold rule predicate)
  | .sort source key order =>
    .sort (source, fold rule source) (key, fold rule key) (foldOption rule order)
  | .call name site args => .call name site (foldList rule args)
  | .parens inner => .parens (inner, fold rule inner)
  | .joined first tail => .joined (first, fold rule first) (foldTail rule tail)
  | .bounds lower upper => .bounds (lower, fold rule lower) (upper, fold rule upper)

/-- Parts with what has been made of them. -/
def foldList (rule : Layer (Phrase × α) → α) : List Phrase → List (Phrase × α)
  | [] => []
  | part :: rest => (part, fold rule part) :: foldList rule rest

/-- Entries with what has been made of their values. -/
def foldEntries (rule : Layer (Phrase × α) → α) :
    List (EntryName × Option Phrase) → List (EntryName × Option (Phrase × α))
  | [] => []
  | (key, value) :: rest => (key, foldOption rule value) :: foldEntries rule rest

/-- Steps with what has been made of their parts. -/
def foldSteps (rule : Layer (Phrase × α) → α) :
    List (WrittenStep Phrase) → List (WrittenStep (Phrase × α))
  | [] => []
  | .member field :: rest => .member field :: foldSteps rule rest
  | .place negative digits :: rest => .place negative digits :: foldSteps rule rest
  | .all :: rest => .all :: foldSteps rule rest
  | .part part :: rest => .part (part, fold rule part) :: foldSteps rule rest

/-- Operators and terms with what has been made of the terms. -/
def foldTail (rule : Layer (Phrase × α) → α) :
    List (Operator × Phrase) → List (Operator × Phrase × α)
  | [] => []
  | (op, term) :: rest => (op, term, fold rule term) :: foldTail rule rest

/-- A part that may be missing, with what has been made of it. -/
def foldOption (rule : Layer (Phrase × α) → α) : Option Phrase → Option (Phrase × α)
  | none => none
  | some part => some (part, fold rule part)

end

section

variable (rule : Layer (Phrase × α) → α)

theorem foldList_eq (parts : List Phrase) :
    foldList rule parts = parts.map fun e => (e, fold rule e) := by
  induction parts with
  | nil => rfl
  | cons part rest ih => simp [foldList, ih]

theorem foldOption_eq (part : Option Phrase) :
    foldOption rule part = part.map fun e => (e, fold rule e) := by
  cases part <;> rfl

theorem foldEntries_eq (entries : List (EntryName × Option Phrase)) :
    foldEntries rule entries =
      entries.map fun (key, value) => (key, value.map fun e => (e, fold rule e)) := by
  induction entries with
  | nil => rfl
  | cons entry rest ih => simp [foldEntries, foldOption_eq, ih]

theorem foldSteps_eq (steps : List (WrittenStep Phrase)) :
    foldSteps rule steps = steps.map (WrittenStep.map fun e => (e, fold rule e)) := by
  induction steps with
  | nil => rfl
  | cons step rest ih => cases step <;> simp [foldSteps, WrittenStep.map, ih]

theorem foldTail_eq (tail : List (Operator × Phrase)) :
    foldTail rule tail = tail.map fun (op, term) => (op, term, fold rule term) := by
  induction tail with
  | nil => rfl
  | cons entry rest ih => simp [foldTail, ih]

theorem foldLayer_eq (layer : Layer Phrase) :
    foldLayer rule layer = layer.mapParts fun e => (e, fold rule e) := by
  cases layer <;>
    simp [foldLayer, Layer.mapParts, foldList_eq, foldEntries_eq, foldSteps_eq, foldTail_eq,
      foldOption_eq]

/-- A fold is the rule, applied to the layer with each part beside its own fold. -/
theorem fold_mk (layer : Layer Phrase) :
    fold rule (.mk layer) = rule (layer.mapParts fun e => (e, fold rule e)) := by
  rw [fold, foldLayer_eq]

end

section

variable {P : Phrase → Prop}

mutual

/-- What holds of a phrase whenever it holds of its parts holds of every phrase. -/
theorem induction (step : ∀ e : Phrase, (∀ part ∈ e.children, P part) → P e) :
    ∀ e : Phrase, P e
  | .mk layer => step (.mk layer) (induction_layer step layer)

theorem induction_layer (step : ∀ e : Phrase, (∀ part ∈ e.children, P part) → P e) :
    ∀ layer : Layer Phrase, ∀ part ∈ layer.children, P part
  | .number _ _ _ | .truth _ | .null | .string _ | .parameter _ _ => by simp [Layer.children]
  | .documents selector => by
    have := induction_option step selector
    simpa [Layer.children] using this
  | .document entries => induction_entries step entries
  | .array items => induction_list step items
  | .path _ steps behind => by
    have hs := induction_steps step steps
    have hb := induction_option step behind
    intro part hpart
    rcases List.mem_append.mp hpart with h | h
    · exact hs part h
    · exact hb part (Option.mem_toList.mp h)
  | .map a b | .filter a b | .bounds a b => by
    have := induction step a; have := induction step b
    simp_all [Layer.children]
  | .sort a b c => by
    have := induction step a; have := induction step b; have := induction_option step c
    simp_all [Layer.children]
  | .call _ _ args => induction_list step args
  | .parens inner => by
    have := induction step inner
    simp_all [Layer.children]
  | .joined first tail =>
    List.forall_mem_cons.mpr ⟨induction step first, induction_tail step tail⟩

theorem induction_list (step : ∀ e : Phrase, (∀ part ∈ e.children, P part) → P e) :
    ∀ parts : List Phrase, ∀ part ∈ parts, P part
  | [] => by simp
  | e :: rest => List.forall_mem_cons.mpr ⟨induction step e, induction_list step rest⟩

theorem induction_entries (step : ∀ e : Phrase, (∀ part ∈ e.children, P part) → P e) :
    ∀ entries : List (EntryName × Option Phrase),
      ∀ part ∈ entries.flatMap (fun entry => entry.2.toList), P part
  | [] => by simp
  | (_, value) :: rest => by
    have hv := induction_option step value
    have hr := induction_entries step rest
    intro part hpart
    rw [List.flatMap_cons] at hpart
    rcases List.mem_append.mp hpart with h | h
    · exact hv part (Option.mem_toList.mp h)
    · exact hr part h

theorem induction_steps (step : ∀ e : Phrase, (∀ part ∈ e.children, P part) → P e) :
    ∀ steps : List (WrittenStep Phrase), ∀ part ∈ steps.flatMap WrittenStep.children, P part
  | [] => by simp
  | .member _ :: rest | .place _ _ :: rest | .all :: rest => induction_steps step rest
  | .part e :: rest =>
    List.forall_mem_cons.mpr ⟨induction step e, induction_steps step rest⟩

theorem induction_tail (step : ∀ e : Phrase, (∀ part ∈ e.children, P part) → P e) :
    ∀ tail : List (Operator × Phrase), ∀ part ∈ tail.map Prod.snd, P part
  | [] => by simp
  | (_, e) :: rest => List.forall_mem_cons.mpr ⟨induction step e, induction_tail step rest⟩

theorem induction_option (step : ∀ e : Phrase, (∀ part ∈ e.children, P part) → P e) :
    ∀ part : Option Phrase, ∀ e ∈ part, P e
  | none => by simp
  | some e => by
    have := induction step e
    simp_all

end

end

end Phrase

end DocQuery
