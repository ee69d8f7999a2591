import DocQuery.Node.Compose
import DocQuery.Proofs.Discipline
import DocQuery.Proofs.Precedence
/-!
# DocQuery.Proofs.Composition

Composed nodes keep the discipline of cardinalities. A node put together from parts that
keep it does so too, as long as the parts yield what their places ask for; the coercions
make one value of a sequence and a sequence of one value.
-/

namespace DocQuery

namespace Node

@[simp] theorem isScalar_compose (type : ExprType) (isScalar : Bool) (source : String)
    (form : Form Node) : (compose type isScalar source form).isScalar = isScalar := rfl

@[simp] theorem isScalar_varying (n : Node) : n.varying.isScalar = n.isScalar := by
  cases n
  rfl

@[simp] theorem isScalar_reading (fields : Fields) (n : Node) :
    (n.reading fields).isScalar = n.isScalar := by
  cases n
  rfl

@[simp] theorem isScalar_parenthesized (n : Node) : n.parenthesized.isScalar = n.isScalar := by
  cases n
  rfl

namespace Disciplined

/-- The discipline of a composed node: that of its own layer, and that of its parts. -/
theorem compose {type : ExprType} {isScalar : Bool} {source : String} {form : Form Node}
    (hform : form.Disciplined (Node.compose type isScalar source form).info)
    (hparts : ∀ part ∈ form.children, part.Disciplined) :
    (Node.compose type isScalar source form).Disciplined :=
  disciplined_iff.mpr ⟨hform, hparts⟩

/-- Whether the discipline is kept depends only on how many values a node yields. -/
theorem of_isScalar {info info' : NodeInfo} {form : Form Node} (h : (mk info form).Disciplined)
    (hinfo : info'.isScalar = info.isScalar) : (mk info' form).Disciplined := by
  refine disciplined_iff.mpr ⟨?_, fun part hpart => h.part hpart⟩
  have hform : form.Disciplined info := h.form
  change form.Disciplined info'
  cases form <;> simpa only [Form.Disciplined, hinfo] using hform

theorem varying {n : Node} (h : n.Disciplined) : n.varying.Disciplined := by
  cases n
  exact h.of_isScalar rfl

theorem reading {n : Node} (h : n.Disciplined) (fields : Fields) :
    (n.reading fields).Disciplined := by
  cases n
  exact h.of_isScalar rfl

theorem parenthesized {n : Node} (h : n.Disciplined) : n.parenthesized.Disciplined := by
  cases n
  exact h.of_isScalar rfl

/-! ### Leaves -/

theorem constant (type : ExprType) (value : Value) (source : String) :
    (Node.constant type value source).Disciplined :=
  compose rfl (List.forall_mem_nil _)

theorem parameter (name : String) : (Node.parameter name).Disciplined := by
  refine varying (compose ?_ (List.forall_mem_nil _))
  rfl

theorem documents : Node.documents.Disciplined :=
  disciplined_iff.mpr ⟨rfl, List.forall_mem_nil _⟩

theorem generate (generator : Generator) (site : Nat) :
    (Node.generate generator site).Disciplined := by
  refine varying (compose ?_ (List.forall_mem_nil _))
  rfl

/-! ### Paths and coercions -/

/-- A path keeps the discipline if only its last step may yield more than one value and the places
it computes are scalar. -/
theorem path {fields : Fields} {root : PathRoot} {steps : List (PathStep Node)}
    (hlast : steps.dropLast.any PathStep.isEnumerable = false)
    (hplaces : ∀ part, .indexOf part ∈ steps → part.isScalar = true)
    (hparts : ∀ part ∈ steps.flatMap PathStep.children, part.Disciplined) :
    (Node.path fields root steps).Disciplined := by
  have hform (source : String) : (Node.compose .path (!steps.any PathStep.isEnumerable) source
      (.path root steps)).Disciplined := compose ⟨rfl, hlast, hplaces⟩ hparts
  exact (hform _).varying.reading fields

theorem shorthand (name : String) : (Node.shorthand name).Disciplined :=
  path rfl (by simp) (by simp [PathStep.children])

/-- The call of `ITEMS` on one value. -/
theorem call_items {n : Node} (h : n.Disciplined) (hn : n.isScalar = true) (source : String) :
    (Node.compose .call false source (.call .items [n])).Disciplined :=
  compose ⟨rfl, .cons hn .nil⟩ (by simpa [Form.children] using h)

/-- One value becomes a sequence by a step behind its path or by a call. The step may yield any
number of values, so none of those in front of it may, which holds since the path was scalar. -/
theorem spread {n : Node} (h : n.Disciplined) (hn : n.isScalar = true) : n.spread.Disciplined := by
  obtain ⟨info, form⟩ := n
  cases form with
  | path root steps =>
      simp only [Node.spread]
      split
      · exact h.call_items hn _
      · obtain ⟨hscalar, -, hplaces⟩ : (Form.path root steps).Disciplined info := h.form
        have hsteps : steps.any PathStep.isEnumerable = false := by
          rw [← Bool.not_eq_true']
          exact hscalar.symm.trans hn
        refine disciplined_iff.mpr ⟨⟨?_, ?_, ?_⟩, ?_⟩
        · simp [PathStep.isEnumerable, Node.info]
        · rwa [List.dropLast_concat]
        · intro part hpart
          refine hplaces part ?_
          simpa using hpart
        · intro part hpart
          refine h.part ?_
          simpa [children, Node.form, Form.children, PathStep.children] using hpart
  | _ => exact h.call_items hn _

/-- A sequence becomes one value as an array. -/
theorem gather {n : Node} (h : n.Disciplined) (hn : n.isScalar = false) : n.gather.Disciplined :=
  compose ⟨rfl, .cons hn .nil⟩ (by simpa [Form.children] using h)

/-- What yields a sequence already is left as it is. -/
theorem asSequence {n : Node} (h : n.Disciplined) : n.asSequence.Disciplined := by
  unfold Node.asSequence
  split
  · rename_i hn
    exact h.spread hn
  · exact h

theorem asScalar {n : Node} (h : n.Disciplined) : n.asScalar.Disciplined := by
  unfold Node.asScalar
  split
  · exact h
  · rename_i hn
    exact h.gather (by simpa using hn)

end Disciplined

@[simp] theorem isScalar_spread (n : Node) : n.spread.isScalar = false := by
  obtain ⟨info, form⟩ := n
  cases form with
  | path root steps =>
      simp only [spread]
      split <;> rfl
  | _ => rfl

@[simp] theorem isScalar_asSequence (n : Node) : n.asSequence.isScalar = false := by
  unfold asSequence
  split
  · exact n.isScalar_spread
  · rename_i hn
    simpa using hn

@[simp] theorem isScalar_asScalar (n : Node) : n.asScalar.isScalar = true := by
  unfold asScalar
  split
  · assumption
  · rfl

namespace Disciplined

/-! ### Documents, arrays and functions on sequences

Here the places ask for what the parser has made sure of: values of entries and items are scalar,
sources are sequences. -/

theorem document {entries : List (String × Node)}
    (h : ∀ part ∈ entries.map Prod.snd, part.isScalar = true ∧ part.Disciplined) :
    (Node.document entries).Disciplined :=
  compose ⟨rfl, fun part hpart => (h part hpart).1⟩ fun part hpart => (h part hpart).2

theorem array {items : List Node} (h : ∀ item ∈ items, item.isScalar = true ∧ item.Disciplined) :
    (Node.array items).Disciplined :=
  compose ⟨rfl, fun item hitem => (h item hitem).1⟩ fun item hitem => (h item hitem).2

theorem map {source selector : Node} (hs : source.Disciplined) (hscalar : source.isScalar = false)
    (hp : selector.Disciplined) : (Node.map source selector).Disciplined :=
  compose ⟨rfl, hscalar⟩ (by simpa [Form.children] using ⟨hs, hp⟩)

theorem filter {source predicate : Node} (hs : source.Disciplined)
    (hscalar : source.isScalar = false) (hp : predicate.Disciplined) :
    (Node.filter source predicate).Disciplined :=
  compose ⟨rfl, hscalar⟩ (by simpa [Form.children] using ⟨hs, hp⟩)

/-- The order of a sort has to be scalar, the key may be any expression. -/
theorem sort {source key : Node} {order : Option Node} (hs : source.Disciplined)
    (hscalar : source.isScalar = false) (hp : key.Disciplined)
    (ho : ∀ part ∈ order, part.isScalar = true ∧ part.Disciplined) :
    (Node.sort source key order).Disciplined := by
  refine compose ⟨rfl, hscalar, fun part hpart => (ho part hpart).1⟩ ?_
  intro part hpart
  simp only [Form.children, List.mem_cons, Option.mem_toList] at hpart
  rcases hpart with rfl | rfl | hpart
  · exact hs
  · exact hp
  · exact (ho part hpart).2

/-! ### Calls -/

theorem coerce {n : Node} (h : n.Disciplined) (cardinality : Cardinality) :
    (Node.coerce cardinality n).Disciplined := by
  cases cardinality with
  | scalar => exact h.asScalar
  | sequence => exact h.asSequence

end Disciplined

theorem admits_coerce (cardinality : Cardinality) (n : Node) :
    cardinality.Admits (coerce cardinality n) := by
  cases cardinality with
  | scalar => exact n.isScalar_asScalar
  | sequence => exact n.isScalar_asSequence

/-- Arguments in the right number are coerced to what a function asks for. -/
theorem forall₂_admits_coerce {params : List Cardinality} {args : List Node}
    (h : params.length = args.length) :
    List.Forall₂ Cardinality.Admits params (List.zipWith coerce params args) := by
  induction params generalizing args with
  | nil => exact .nil
  | cons cardinality params ih =>
      cases args with
      | nil => cases h
      | cons arg args => exact .cons (admits_coerce cardinality arg) (ih (Nat.succ.inj h))

namespace Disciplined

theorem call {function : Builtin} {args : List Node}
    (hlength : function.signature.params.length = args.length)
    (h : ∀ arg ∈ args, arg.Disciplined) : (Node.call function args).Disciplined := by
  refine compose ⟨rfl, forall₂_admits_coerce hlength⟩ ?_
  intro part hpart
  -- Every argument of the call is the coercion of one that was written.
  obtain ⟨cardinality, arg, hmem, rfl⟩ :
      ∃ cardinality, ∃ arg ∈ args, Node.coerce cardinality arg = part := by
    simp only [Form.children] at hpart
    obtain ⟨i, hi, rfl⟩ := List.mem_iff_getElem.mp hpart
    rw [List.getElem_zipWith]
    exact ⟨_, _, List.getElem_mem _, rfl⟩
  exact (h arg hmem).coerce cardinality

/-- A choice is scalar if both branches are; otherwise both are made sequences. -/
theorem conditional {test ifTrue ifFalse : Node} (ht : test.Disciplined)
    (hscalar : test.isScalar = true) (h₁ : ifTrue.Disciplined) (h₂ : ifFalse.Disciplined) :
    (Node.conditional test ifTrue ifFalse).Disciplined := by
  unfold Node.conditional
  extract_lets source
  split
  · rename_i h
    rw [Bool.and_eq_true] at h
    exact compose ⟨hscalar, h⟩ (by simpa [Form.children] using ⟨ht, h₁, h₂⟩)
  · refine compose ⟨hscalar, isScalar_asSequence _, isScalar_asSequence _⟩ ?_
    simpa [Form.children] using ⟨ht, h₁.asSequence, h₂.asSequence⟩

/-! ### Operators -/

theorem bounds {lower upper : Node} (hl : lower.Disciplined) (hu : upper.Disciplined)
    (hlscalar : lower.isScalar = true) (huscalar : upper.isScalar = true) :
    (Node.bounds lower upper).Disciplined :=
  compose ⟨rfl, by simpa using ⟨hlscalar, huscalar⟩⟩ (by simpa [Form.children] using ⟨hl, hu⟩)

/-- An operator has a scalar on its right; on its left too, unless it is quantified. -/
theorem operation {op : Operator} {left right : Node} (hl : left.Disciplined)
    (hr : right.Disciplined) (hleft : left.isScalar = !Precedence.isQuantified op)
    (hright : right.isScalar = true) : (Node.operation op left right).Disciplined := by
  cases op with
  | binary op | quantified quantifier op | logic op =>
      exact compose ⟨rfl, hleft, hright⟩ (by simpa [Form.children] using ⟨hl, hr⟩)

/-- Two nodes joined by an operator keep the discipline if they do by themselves. -/
theorem combine {op : Operator} {left right n : Node} (hl : left.Disciplined)
    (hr : right.Disciplined) (h : Precedence.combine op left right = .ok n) : n.Disciplined := by
  obtain ⟨hleft, hright, rfl⟩ := Precedence.combine_eq_ok.mp h
  refine operation ?_ hr ?_ hright
  · cases op with
    | quantified quantifier op => exact hl.asSequence
    | binary op | logic op => exact hl
  · cases op with
    | quantified quantifier op => exact left.isScalar_asSequence
    | binary op | logic op => exact hleft rfl

/-- What a tree of operators is built to keeps the discipline if its leaves do. -/
theorem build {t : OpTree Node} (h : t.All Node.Disciplined) {n : Node} (hn : t.build = some n) :
    n.Disciplined := by
  induction t generalizing n with
  | leaf m =>
      cases hn
      exact h
  | node op left right ihl ihr =>
      simp only [OpTree.build, Option.bind_eq_bind, Option.bind_eq_some_iff] at hn
      -- Both operands have been built, so the induction gives their discipline.
      obtain ⟨l, hl, r, hr, hjoin⟩ := hn
      exact (ihl h.1 hl).combine (ihr h.2 hr) (Precedence.toOption_eq_some.mp hjoin)

/-- A row of terms that keep the discipline is reduced to a node that does. -/
theorem reduce {first n : Node} {tail : Precedence.Tail} (hfirst : first.Disciplined)
    (htail : ∀ m ∈ tail.map Prod.snd, m.Disciplined) (h : Precedence.reduce first tail = .ok n) :
    n.Disciplined := by
  -- What the reducer makes of a row is what the tree of the row is built to.
  have hbuild := Precedence.reduce_eq_build (OpTree.ordered_ofRow first tail)
  rw [OpTree.first_ofRow, OpTree.tail_ofRow, h] at hbuild
  refine build (OpTree.all_iff.mpr ?_) hbuild.symm
  rw [OpTree.first_ofRow, OpTree.tail_ofRow]
  exact ⟨hfirst, htail⟩

end Disciplined

end Node

end DocQuery
