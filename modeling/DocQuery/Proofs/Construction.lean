import DocQuery.Proofs.Typing
/-!
# DocQuery.Proofs.Construction

How expressions come about. Whatever a text is parsed into has been put together from paths,
parameters, generators and the documents by a few constructions (`Node.Built`), each of which
takes over in its own way what is known of the parts. What these constructions keep holds of
every expression, by induction.
-/

namespace DocQuery

/-- The layer takes nothing from a context itself; only its parts may. -/
def Form.isClosed {ν : Type} : Form ν → Bool
  | .parameter _ | .documents | .path _ _ | .generate _ _ => false
  | _ => true

/-- A path of the root document that begins with a name begins with a field that is not empty. -/
def PathStart.BeginsNamed (scope : Scope) (steps : List (PathStep Node)) (start : PathStart) :
    Prop :=
  start.root scope = .document → start.field = "" → ∀ name rest, steps ≠ .member name :: rest

/-- A path that is read has the parts of its steps. A first field adds none, and is known of the
path if this is one of the root document. -/
theorem PathStart.node_eq (start : PathStart) (scope : Scope) (steps : List (PathStep Node)) :
    ∃ fields steps', start.node scope steps = Node.path fields (start.root scope) steps' ∧
      steps'.flatMap PathStep.children = steps.flatMap PathStep.children ∧
      (start.field ≠ "" ∧ steps' = .member start.field :: steps ∧
          (start.root scope = .document → fields = Fields.single start.field) ∨
        start.field = "" ∧ steps' = steps) := by
  refine ⟨_, _, rfl, ?_⟩
  cases hempty : start.field.isEmpty with
  | true => exact ⟨rfl, .inr ⟨String.isEmpty_iff.mp hempty, rfl⟩⟩
  | false =>
      have hname : start.field ≠ "" := fun h => by simp [h] at hempty
      refine ⟨rfl, .inl ⟨hname, rfl, fun hroot => ?_⟩⟩
      simp [hroot]

/-- An expression put together by the constructions of the parser. If `named`, the paths of the
root document in it begin with names. -/
inductive Node.Built (named : Prop) : Node → Prop where
  | parameter (name : String) : Built named (.parameter name)
  | documents : Built named .documents
  | generate (generator : Generator) (site : Nat) : Built named (.generate generator site)
  | shorthand (name : String) (h : named → name ≠ "") : Built named (.shorthand name)
  | path {start : PathStart} {scope : Scope} {steps : List (PathStep Node)}
      (h : named → start.BeginsNamed scope steps)
      (hparts : ∀ part ∈ steps.flatMap PathStep.children, Built named part) :
      Built named (start.node scope steps)
  | compose {type : ExprType} {isScalar : Bool} {source : String} {form : Form Node}
      (hform : form.isClosed = true) (hparts : ∀ part ∈ form.children, Built named part) :
      Built named (.compose type isScalar source form)
  | parenthesized {n : Node} (h : Built named n) : Built named n.parenthesized
  | spread {info : NodeInfo} {root : PathRoot} {steps : List (PathStep Node)}
      (h : Built named (.mk info (.path root steps))) :
      Built named (.mk { info with isScalar := false, source := info.source ++ "[*]" }
        (.path root (steps ++ [.items])))

namespace Node.Built

variable {named : Prop}

/-! ### Constructions

Every constructor of the parser is one of the few constructions, or several of them after one
another; what is closed takes only its parts from a context. -/

theorem constant (type : ExprType) (value : Value) (source : String) :
    Built named (Node.constant type value source) :=
  compose rfl (List.forall_mem_nil _)

theorem gather {n : Node} (h : Built named n) : Built named n.gather :=
  compose rfl (by simpa [Form.children] using h)

theorem call_items {n : Node} (h : Built named n) (source : String) :
    Built named (Node.compose .call false source (.call .items [n])) :=
  compose rfl (by simpa [Form.children] using h)

theorem spread_node {n : Node} (h : Built named n) : Built named n.spread := by
  obtain ⟨info, form⟩ := n
  cases form with
  -- A path in parentheses is the argument of a call, like anything that is no path.
  | path root steps =>
      simp only [Node.spread]
      split
      · exact h.call_items _
      · exact h.spread
  | _ => exact h.call_items _

theorem asSequence {n : Node} (h : Built named n) : Built named n.asSequence := by
  unfold Node.asSequence
  split
  · exact h.spread_node
  · exact h

theorem asScalar {n : Node} (h : Built named n) : Built named n.asScalar := by
  unfold Node.asScalar
  split
  · exact h
  · exact h.gather

theorem coerce {n : Node} (h : Built named n) (cardinality : Cardinality) :
    Built named (Node.coerce cardinality n) := by
  cases cardinality with
  | scalar => exact h.asScalar
  | sequence => exact h.asSequence

theorem document {entries : List (String × Node)}
    (h : ∀ part ∈ entries.map Prod.snd, Built named part) : Built named (Node.document entries) :=
  compose rfl h

theorem array {items : List Node} (h : ∀ item ∈ items, Built named item) :
    Built named (Node.array items) :=
  compose rfl h

theorem map {source selector : Node} (hs : Built named source) (hp : Built named selector) :
    Built named (Node.map source selector) :=
  compose rfl (by simpa [Form.children] using ⟨hs, hp⟩)

theorem filter {source predicate : Node} (hs : Built named source) (hp : Built named predicate) :
    Built named (Node.filter source predicate) :=
  compose rfl (by simpa [Form.children] using ⟨hs, hp⟩)

theorem sort {source key : Node} {order : Option Node} (hs : Built named source)
    (hk : Built named key) (ho : ∀ part ∈ order, Built named part) :
    Built named (Node.sort source key order) := by
  refine compose rfl fun part hpart => ?_
  simp only [Form.children, List.mem_cons, Option.mem_toList] at hpart
  rcases hpart with rfl | rfl | hpart
  · exact hs
  · exact hk
  · exact ho part hpart

/-- Arguments are coerced first, each as its parameter asks. -/
theorem call {function : Builtin} {args : List Node} (h : ∀ arg ∈ args, Built named arg) :
    Built named (Node.call function args) := by
  refine compose rfl fun part hpart => ?_
  obtain ⟨i, hi, rfl⟩ := List.mem_iff_getElem.mp hpart
  simp only [Form.children, List.getElem_zipWith]
  exact (h _ (List.getElem_mem _)).coerce _

theorem conditional {test ifTrue ifFalse : Node} (ht : Built named test) (h₁ : Built named ifTrue)
    (h₂ : Built named ifFalse) : Built named (Node.conditional test ifTrue ifFalse) := by
  unfold Node.conditional
  extract_lets source
  split
  · exact compose rfl (by simpa [Form.children] using ⟨ht, h₁, h₂⟩)
  · exact compose rfl (by simpa [Form.children] using ⟨ht, h₁.asSequence, h₂.asSequence⟩)

theorem bounds {lower upper : Node} (hl : Built named lower) (hu : Built named upper) :
    Built named (Node.bounds lower upper) :=
  compose rfl (by simpa [Form.children] using ⟨hl, hu⟩)

theorem operation {op : Operator} {left right : Node} (hl : Built named left)
    (hr : Built named right) : Built named (Node.operation op left right) := by
  cases op <;> exact compose rfl (by simpa [Form.children] using ⟨hl, hr⟩)

theorem combine {op : Operator} {left right n : Node} (hl : Built named left)
    (hr : Built named right) (h : Precedence.combine op left right = .ok n) : Built named n := by
  obtain ⟨-, -, rfl⟩ := Precedence.combine_eq_ok.mp h
  refine operation ?_ hr
  cases op with
  | quantified quantifier op => exact hl.asSequence
  | binary op | logic op => exact hl

/-- Along the tree of a row, where each operator combines what its sides are built to. -/
theorem build {t : OpTree Node} (h : t.All (Built named)) {n : Node} (hn : t.build = some n) :
    Built named n := by
  induction t generalizing n with
  | leaf m =>
      cases hn
      exact h
  | node op left right ihl ihr =>
      obtain ⟨l, hl, r, hr, hcombine⟩ := OpTree.build_node_eq_some.mp hn
      exact (ihl h.1 hl).combine (ihr h.2 hr) hcombine

/-- A row is reduced to what its tree is built to, and its terms are the leaves of the tree. -/
theorem reduce {first n : Node} {tail : Precedence.Tail} (hfirst : Built named first)
    (htail : ∀ m ∈ tail.map Prod.snd, Built named m) (h : Precedence.reduce first tail = .ok n) :
    Built named n := by
  have hbuild := Precedence.reduce_eq_build (OpTree.ordered_ofRow first tail)
  rw [OpTree.first_ofRow, OpTree.tail_ofRow, h] at hbuild
  refine build (OpTree.all_iff.mpr ?_) hbuild.symm
  rw [OpTree.first_ofRow, OpTree.tail_ofRow]
  exact ⟨hfirst, htail⟩

end Node.Built

namespace Phrase

variable {named : Prop} {scope : Scope}

/-! ### Phrases -/

/-- If a path begins with the empty name, then not in the root document, unless it has no field
at all; and no entry without a value has that name. -/
def Layer.BeginsNamed : Layer Phrase → Prop
  | .path start _ _ =>
    start.field = "" → start = .sigil .document none ∨ ∃ field, start = .sigil .current field
  | .document entries => ∀ entry ∈ entries, entry.2 = none → entry.1.name ≠ ""
  | _ => True

/-- A step is a field name only if it is written as one. -/
theorem ne_member_of_stepNodes {ws : List (WrittenStep Phrase)} {steps : List (PathStep Node)}
    (hws : ws.head?.any WrittenStep.isMember = false) (h : stepNodes node ws = some steps)
    (name : String) (rest : List (PathStep Node)) : steps ≠ .member name :: rest := by
  cases ws with
  | nil =>
      cases h
      rintro ⟨⟩
  | cons w ws =>
      obtain ⟨step, hstep, others, -, rfl⟩ := stepNodes_cons_eq_some.mp h
      rintro heq
      injection heq with hhead
      subst hhead
      cases w with
      | member field => cases hws
      | all => cases hstep
      | place negative digits =>
          obtain ⟨n, -, hn⟩ := Option.map_eq_some_iff.mp hstep
          cases hn
      | part e =>
          obtain ⟨n, -, hn⟩ := Option.map_eq_some_iff.mp hstep
          split at hn <;> cases hn

/-- A path of the root document without a first field may not go on with a name, for this name would
be the field. -/
theorem beginsNamed_node {start : PathStart} {ws : List (WrittenStep Phrase)}
    {behind : Option Phrase} {steps : List (PathStep Node)} (hallows : start.Allows ws)
    (hnamed : Layer.BeginsNamed (.path start ws behind)) (h : stepNodes node ws = some steps) :
    start.BeginsNamed scope steps := by
  intro hroot hfield
  rcases hnamed hfield with rfl | ⟨field, rfl⟩
  · exact ne_member_of_stepNodes hallows h
  · cases hroot

/-- What is put together by the constructions can be put together by them further. -/
theorem keeps_built : Keeps (fun layer => named → layer.BeginsNamed) (Node.Built named) where
  constant := .constant
  parameter := .parameter
  documents := .documents
  generate := .generate
  shorthand hlayer h := .shorthand _ fun hn => hlayer hn _ h rfl
  path _ hlayer hwf hsteps h :=
    .path (fun hn => beginsNamed_node hwf.layer.1 (hlayer hn) hsteps) h
  parenthesized := .parenthesized
  asSequence := .asSequence
  asScalar := .asScalar
  document h := .document fun part hpart => (h part hpart).2
  array h := .array fun item hitem => (h item hitem).2
  map hs _ h := .map hs h
  filter hs _ h := .filter hs h
  sort hs _ h ho := .sort hs h fun part hpart => (ho part hpart).2
  call _ h := .call h
  conditional ht _ hi hf := .conditional ht hi hf
  joined _ _ _ hm htail hn := .reduce hm htail hn
  bounds hl hu _ _ := .bounds hl hu

/-- What a well-formed phrase stands for is put together by the constructions. -/
theorem built {e : Phrase} (hwf : e.WellFormed) (hnamed : named → e.Everywhere Layer.BeginsNamed)
    {n : Node} (h : e.node scope = some n) : n.Built named := by
  refine keeps_node keeps_built hwf ?_ h
  by_cases hn : named
  · exact (hnamed hn).imp fun _ hlayer _ => hlayer
  · exact .of_forall (fun _ hn' => absurd hn' hn) e

end Phrase

/-- Every expression that a text is parsed into is put together by the constructions. -/
theorem built_of_parse {code : String} {scope : Scope} {mode : ParseMode} {n : Node}
    (h : parse code scope mode = .ok n) : n.Built False := by
  obtain ⟨stream, s', e, -, -, hread, -⟩ := parse_reads h
  exact Phrase.built hread.wellFormed False.elim hread.node

end DocQuery
