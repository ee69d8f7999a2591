import DocQuery.Proofs.Construction
import DocQuery.Proofs.Origins
import DocQuery.Proofs.Parsed
import DocQuery.Proofs.Reduction
import DocQuery.Proofs.RoundTrip
import Mathlib.Data.List.Chain
/-!
# DocQuery.Proofs.Ranges

Comparisons with a range. The two bounds behind `BETWEEN` are read as one array, and this
array is a term of its row like any other. So it stands on the right of its own operator
only if no other operator takes it first, and what comes behind it decides that: a tighter
operator takes it, a looser one does not (`OpTree.rangesWhole_iff`). What comes in front of
`BETWEEN` is of no concern.

Where no row has a tighter operator behind a range, every comparison with a range finds its
two bounds, and none fails for want of them (`ranges_kept`).
-/

namespace DocQuery

/-! ### Rows -/

namespace Operator

/-- An operator behind a range does not take the range from the operator in front of it. -/
def SparesRange (op next : Operator) : Prop := op.isBetween = true → op.level ≤ next.level

end Operator

namespace OpTree

variable {α : Type}

/-- A tree and all that is below it. -/
inductive Within (t : OpTree α) : OpTree α → Prop where
  | self : Within t t
  | left {op : Operator} {left right : OpTree α} (h : Within t (.node op left right)) :
    Within t left
  | right {op : Operator} {left right : OpTree α} (h : Within t (.node op left right)) :
    Within t right

/-- Every operator that asks for bounds has a leaf on its right. -/
def RangesWhole : OpTree α → Prop
  | .leaf _ => True
  | .node op left right =>
    (op.isBetween = true → ∃ a, right = .leaf a) ∧ left.RangesWhole ∧ right.RangesWhole

/-- In an ordered tree, the ranges are whole just if the operator behind each of them spares
it. -/
theorem rangesWhole_iff {t : OpTree α} (h : t.Ordered) :
    t.RangesWhole ↔ (t.tail.map Prod.fst).IsChain Operator.SparesRange := by
  induction t with
  | leaf a => exact iff_of_true trivial .nil
  | node op left right ihl ihr =>
      obtain ⟨hleft, hright, hl, hr⟩ := h
      rw [RangesWhole, ihl hl, ihr hr, tail, List.map_append, List.map_cons, List.isChain_append,
        List.isChain_cons]
      -- The operators on the left are no looser than `op`, and those on the right are tighter.
      have hspared : ∀ o ∈ (left.tail.map Prod.fst).getLast?,
          ∀ o' ∈ (op :: right.tail.map Prod.fst).head?, Operator.SparesRange o o' := by
        rintro o ho o' ⟨⟩ -
        obtain ⟨entry, hentry, rfl⟩ := List.mem_map.mp (List.mem_of_getLast? ho)
        exact Nat.le_of_lt_succ (below_iff.mp hleft entry hentry)
      have htaken : (op.isBetween = true → ∃ a, right = .leaf a) ↔
          ∀ o ∈ (right.tail.map Prod.fst).head?, Operator.SparesRange op o := by
        constructor
        · intro hleaf o ho hbetween
          obtain ⟨a, rfl⟩ := hleaf hbetween
          cases ho
        · intro hspares hbetween
          cases htail : right.tail with
          | nil =>
              cases right with
              | leaf a => exact ⟨a, rfl⟩
              | node o l r => exact absurd htail (by simp [tail])
          | cons entry rest =>
              rw [htail] at hspares
              have hle := hspares entry.1 rfl hbetween
              have hlt := below_iff.mp hright entry (htail ▸ List.mem_cons_self ..)
              exact absurd hlt (Nat.not_lt.mpr hle)
      tauto

end OpTree

/-! ### Expressions -/

namespace Phrase

/-- A phrase and everything written in it. -/
inductive Within (e : Phrase) : Phrase → Prop where
  | self : Within e e
  | part {m part : Phrase} (h : Within e m) (hpart : part ∈ m.children) : Within e part

/-- Something holds of every layer just if it holds of all that is written in the phrase. -/
theorem everywhere_iff {P : Layer Phrase → Prop} {e : Phrase} :
    e.Everywhere P ↔ ∀ m, e.Within m → P m.layer := by
  constructor
  · intro h m hm
    have hbelow : m.Everywhere P := by
      induction hm with
      | self => exact h
      | part _ hpart ih => exact ih.part hpart
    exact hbelow.layer
  · intro h
    have hbelow (m : Phrase) : e.Within m → m.Everywhere P := by
      induction m using Phrase.induction with
      | step m ih =>
          intro hm
          obtain ⟨layer⟩ := m
          exact .mk (h _ hm) fun part hpart => ih part hpart (hm.part hpart)
    exact hbelow e .self

/-- In every row, the operator behind a range spares it. -/
def Layer.KeepsRanges : Layer Phrase → Prop
  | .joined _ row => (row.map Prod.fst).IsChain Operator.SparesRange
  | _ => True

end Phrase

/-- The node is the range of one comparison that is written in the phrase. In the tree of its row,
the operator has on its right the bounds written behind it and nothing else, and the node is the
array of the two, each of which yields one value. On its left the operator has the operands of
which the other side is built. -/
def Node.IsRangeOf (n : Node) (e : Phrase) (op : Operator) (left : Node) : Prop :=
  ∃ first row, e.Within (.mk (.joined first row)) ∧
    ∃ operands lower upper,
      (OpTree.ofRow first row).Within (.node op operands (.leaf (.mk (.bounds lower upper)))) ∧
    ∃ scope,
      (∃ m, operands.nodes scope >>= OpTree.build = some m ∧ left = Precedence.takenLeft op m) ∧
      ∃ l u, lower.node scope = some l ∧ upper.node scope = some u ∧
        l.isScalar = true ∧ u.isScalar = true ∧ n = .bounds l u

/-- A comparison with a range has its own range on its right. -/
def Form.TakesRange (e : Phrase) : Form Node → Prop
  | .binary (.comparison .between) left right =>
    right.IsRangeOf e (.binary (.comparison .between)) left
  | .quantified quantifier .between left right =>
    right.IsRangeOf e (.quantified quantifier .between) left
  | _ => True

/-- Every comparison with a range has the two bounds that are written behind it on its right. -/
def Node.TakesRanges (e : Phrase) (n : Node) : Prop :=
  ∀ m, n.Within m → m.form.TakesRange e

namespace Node.TakesRanges

variable {e : Phrase}

/-! ### Constructions -/

theorem compose {type : ExprType} {isScalar : Bool} {source : String} {form : Form Node}
    (hform : form.TakesRange e) (hparts : ∀ part ∈ form.children, TakesRanges e part) :
    TakesRanges e (.compose type isScalar source form) :=
  forall_within.mpr ⟨hform, hparts⟩

/-- What is known of a node does not matter. -/
theorem of_form {info info' : NodeInfo} {form : Form Node} (h : TakesRanges e (.mk info form)) :
    TakesRanges e (.mk info' form) :=
  forall_within.mpr (forall_within.mp h)

theorem parenthesized {n : Node} (h : TakesRanges e n) : TakesRanges e n.parenthesized := by
  obtain ⟨info, form⟩ := n
  exact h.of_form

theorem path {fields : Fields} {root : PathRoot} {steps : List (PathStep Node)}
    (h : ∀ part ∈ steps.flatMap PathStep.children, TakesRanges e part) :
    TakesRanges e (.path fields root steps) :=
  forall_within.mpr ⟨trivial, h⟩

theorem spread {n : Node} (h : TakesRanges e n) : TakesRanges e n.spread := by
  obtain ⟨info, form⟩ := n
  have hcall (source : String) :
      TakesRanges e (.compose .call false source (.call .items [.mk info form])) :=
    compose trivial (by simpa [Form.children] using h)
  cases form with
  | path root steps =>
      simp only [Node.spread]
      split
      · exact hcall _
      · refine forall_within.mpr ⟨trivial, fun part hpart => (forall_within.mp h).2 part ?_⟩
        simpa [children, Node.form, Form.children, PathStep.children] using hpart
  | _ => exact hcall _

theorem asSequence {n : Node} (h : TakesRanges e n) : TakesRanges e n.asSequence := by
  unfold Node.asSequence
  split
  · exact h.spread
  · exact h

theorem asScalar {n : Node} (h : TakesRanges e n) : TakesRanges e n.asScalar := by
  unfold Node.asScalar
  split
  · exact h
  · exact compose trivial (by simpa [Form.children] using h)

theorem coerce {n : Node} (h : TakesRanges e n) (cardinality : Cardinality) :
    TakesRanges e (Node.coerce cardinality n) := by
  cases cardinality with
  | scalar => exact h.asScalar
  | sequence => exact h.asSequence

theorem call {function : Builtin} {args : List Node} (h : ∀ arg ∈ args, TakesRanges e arg) :
    TakesRanges e (.call function args) := by
  refine compose trivial fun part hpart => ?_
  obtain ⟨i, hi, rfl⟩ := List.mem_iff_getElem.mp hpart
  simp only [Form.children, List.getElem_zipWith]
  exact (h _ (List.getElem_mem _)).coerce _

theorem conditional {test ifTrue ifFalse : Node} (ht : TakesRanges e test)
    (h₁ : TakesRanges e ifTrue) (h₂ : TakesRanges e ifFalse) :
    TakesRanges e (.conditional test ifTrue ifFalse) := by
  unfold Node.conditional
  extract_lets source
  split
  · exact compose trivial (by simpa [Form.children] using ⟨ht, h₁, h₂⟩)
  · exact compose trivial (by simpa [Form.children] using ⟨ht, h₁.asSequence, h₂.asSequence⟩)

theorem operation {op : Operator} {left right : Node} (hl : TakesRanges e left)
    (hr : TakesRanges e right) (hop : op.isBetween = true → right.IsRangeOf e op left) :
    TakesRanges e (.operation op left right) := by
  have hparts : ∀ part ∈ [left, right], TakesRanges e part := by simpa using ⟨hl, hr⟩
  cases op with
  | binary op =>
      refine compose ?_ hparts
      cases op with
      | arithmetic op => trivial
      | comparison op => cases op <;> first | trivial | exact hop rfl
  | quantified quantifier op =>
      refine compose ?_ hparts
      cases op <;> first | trivial | exact hop rfl
  | logic op => exact compose trivial hparts

/-- Where the ranges of a tree are whole, each stands on the right of its own operator in what the
tree is built to. -/
theorem build {first : Phrase} {row : List (Operator × Phrase)}
    (hrow : e.Within (.mk (.joined first row))) {t : OpTree Phrase}
    (ht : (OpTree.ofRow first row).Within t) (hwhole : t.RangesWhole) {scope : Scope}
    {u : OpTree Node} (hu : t.nodes scope = some u) (h : u.All (TakesRanges e)) {n : Node}
    (hn : u.build = some n) : TakesRanges e n := by
  induction t generalizing u n with
  | leaf a =>
      obtain ⟨m, -, rfl⟩ := Option.map_eq_some_iff.mp hu
      cases hn
      exact h
  | node op left right ihl ihr =>
      -- The operator joins what its sides are built to; the left side may be coerced, which adds no
      -- operator.
      obtain ⟨hasks, ul, hul, ur, hur, rfl⟩ := OpTree.nodes_node_eq_some.mp hu
      obtain ⟨l, hl, r, hr, hcombine⟩ := OpTree.build_node_eq_some.mp hn
      obtain ⟨-, -, rfl⟩ := Precedence.combine_eq_ok.mp hcombine
      obtain ⟨hleaf, hwl, hwr⟩ := hwhole
      refine operation ?_ (ihr ht.right hwr hur h.2 hr) fun hbetween => ?_
      · have hleft := ihl ht.left hwl hul h.1 hl
        cases op with
        | quantified quantifier op => exact hleft.asSequence
        | binary op | logic op => exact hleft
      · -- The tree has one term on the right, and the operator has asked for bounds there.
        obtain ⟨⟨layer⟩, rfl⟩ := hleaf hbetween
        obtain ⟨b, hb, rfl⟩ := Option.map_eq_some_iff.mp hur
        cases hr
        rw [hbetween] at hasks
        cases layer with
        | bounds lower upper =>
            rw [Phrase.node_eq] at hb
            obtain ⟨l', hl', u', hu', ⟨hlone, huone⟩, rfl⟩ :=
              Phrase.Layer.node_bounds_eq_some.mp hb
            refine ⟨first, row, hrow, left, lower, upper, ht, scope, ⟨l, ?_, rfl⟩, l', u', hl',
              hu', hlone, huone, rfl⟩
            rw [hul]
            exact hl
        | _ => cases hasks

end Node.TakesRanges

namespace Phrase

variable {e : Phrase} {scope : Scope}

/-! ### Phrases -/

/-- A row has ranges on the right of their own operators if every operator behind a range spares
it. -/
theorem takesRanges_reduce {first : Phrase} {row : List (Operator × Phrase)} {m n : Node}
    {tail : Precedence.Tail} (hrow : e.Within (.mk (.joined first row)))
    (hspared : (row.map Prod.fst).IsChain Operator.SparesRange) (hfirst : first.node scope = some m)
    (htail : tailNodes isBounds node scope row = some tail) (hm : m.TakesRanges e)
    (hparts : ∀ part ∈ tail.map Prod.snd, part.TakesRanges e)
    (h : Precedence.reduce m tail = .ok n) : n.TakesRanges e := by
  have hordered := OpTree.ordered_ofRow first row
  have hnodes := OpTree.row_nodes (OpTree.ofRow first row) scope
  rw [OpTree.first_ofRow, OpTree.tail_ofRow, hfirst, htail] at hnodes
  obtain ⟨u, hu, heq⟩ := Option.map_eq_some_iff.mp hnodes.symm
  obtain ⟨rfl, rfl⟩ := Prod.mk.inj heq
  have hbuild := Precedence.reduce_eq_build ((OpTree.nodes_ordered hu).2 hordered)
  rw [h] at hbuild
  refine .build hrow .self ((OpTree.rangesWhole_iff hordered).mpr ?_) hu
    (OpTree.all_iff.mpr ⟨hm, hparts⟩) hbuild.symm
  rwa [OpTree.tail_ofRow]

/-- The constructions keep the ranges, where every operator behind a range spares it. -/
theorem keeps_takesRanges :
    Keeps (fun layer => layer.KeepsRanges ∧ e.Within (.mk layer)) (Node.TakesRanges e) where
  constant _ _ _ := .compose trivial (List.forall_mem_nil _)
  parameter _ := Node.forall_within.mpr ⟨trivial, List.forall_mem_nil _⟩
  documents := Node.forall_within.mpr ⟨trivial, List.forall_mem_nil _⟩
  generate _ _ := Node.forall_within.mpr ⟨trivial, List.forall_mem_nil _⟩
  shorthand _ _ := .path (List.forall_mem_nil _)
  path scope _ _ _ h := by
    obtain ⟨fields, steps', hnode, hparts, -⟩ := PathStart.node_eq _ scope _
    exact hnode ▸ .path (hparts ▸ h)
  parenthesized h := h.parenthesized
  asSequence h := h.asSequence
  asScalar h := h.asScalar
  document h := .compose trivial fun part hpart => (h part hpart).2
  array h := .compose trivial fun item hitem => (h item hitem).2
  map hs _ h := .compose trivial (by simpa [Form.children] using ⟨hs, h⟩)
  filter hs _ h := .compose trivial (by simpa [Form.children] using ⟨hs, h⟩)
  sort hs _ h ho := .compose trivial (by
    simpa [Form.children] using ⟨hs, h, fun part hpart => (ho part hpart).2⟩)
  call _ h := .call h
  conditional ht _ hi hf := .conditional ht hi hf
  joined hlayer hfirst hrow hm htail hn :=
    takesRanges_reduce hlayer.2 hlayer.1 hfirst hrow hm htail hn
  bounds hl hu _ _ := .compose trivial (by simpa [Form.children] using ⟨hl, hu⟩)

end Phrase

/-! ### Values -/

namespace Node

variable {e : Phrase}

/-- A range yields its two bounds. -/
theorem IsRangeOf.scalar {op : Operator} {n left : Node} (h : n.IsRangeOf e op left)
    {ctx : Context} {value : Value} (hv : n.scalar ctx = .ok value) :
    ∃ lower upper, value = .array [lower, upper] := by
  obtain ⟨-, -, -, -, -, -, -, -, -, l, u, -, -, -, -, rfl⟩ := h
  rw [scalar_eq] at hv
  change (Pool.itemValues evaluator ctx [l, u]).map Value.array = .ok value at hv
  simp only [Pool.itemValues] at hv
  cases hl : evaluator.scalar l ctx with
  | error error =>
      rw [hl] at hv
      cases hv
  | ok a =>
      cases hu : evaluator.scalar u ctx with
      | error error =>
          rw [hl, hu] at hv
          cases hv
      | ok b =>
          rw [hl, hu] at hv
          cases hv
          exact ⟨a, b, rfl⟩

/-- Nothing fails as a comparison with a range does that is given none. -/
theorem TakesRanges.not_raises {n : Node} (h : n.TakesRanges e) {m : Node} (hm : n.Within m)
    {types : List String} :
    ¬ m.form.Raises evaluator (.invalidTypes ComparisonOp.between.name types) := by
  -- The error names what was applied, and nothing but the comparison itself has its name.
  have hnames : ∀ op : ComparisonOp, ComparisonOp.between.name = op.name → op = .between := by
    intro op
    cases op <;> first | exact fun _ => rfl | exact fun h => absurd h (by decide)
  have hunnamed : ComparisonOp.between.name ≠ "" := by decide
  have hfunctions : ∀ function : Builtin, ComparisonOp.between.name ≠ function.name := by
    intro function
    cases function <;> decide
  have htakes := h m hm
  generalize m.form = form at htakes
  intro hraises
  cases hraises with
  | call ctx hv h => exact hfunctions _ (Builtin.apply_failsAs _ _ _ _ h)
  | @binary op _ _ ctx a b ha hb h =>
      cases op with
      | arithmetic op => exact hunnamed (Arithmetic.apply_failsAs "" op a b _ h)
      | comparison op =>
          obtain rfl := hnames op ((Comparison.apply_failsAs _ op a b).map _ _ h)
          obtain ⟨lower, upper, rfl⟩ := htakes.scalar hb
          cases h
  | quantified ctx hb h =>
      obtain rfl := hnames _ (Comparison.apply_failsAs _ _ _ _ _ h)
      obtain ⟨lower, upper, rfl⟩ := htakes.scalar hb
      cases h
  | sort ctx h => cases Results.sortPairs_error h

end Node

/-- In what a text is parsed into, every `BETWEEN`, with `ANY`, `ALL` or neither, has on its right
the two bounds that are written behind it, and on its left what is in front of it in the tree of its
row. So on no backend it fails for want of bounds. The condition is that in every row of the text
the operator behind a range binds no tighter than the one in front of it; it does not matter which
operators come before. -/
theorem ranges_kept {code : String} {scope : Scope} {mode : ParseMode} {n : Node}
    (h : parse code scope mode = .ok n) :
    (∃ e : Phrase, e.IsReadFrom code scope n) ∧
      ∀ e : Phrase, e.IsReadFrom code scope n → e.Everywhere Phrase.Layer.KeepsRanges →
        n.TakesRanges e ∧
        ∀ backend program, backend.build n = .ok program → ∀ parameters ctx types,
          .error (.invalidTypes ComparisonOp.between.name types) ∉
              (Expression.ofNode backend n program parameters).execute ctx ∧
            ∀ source, (Expression.ofNode backend n program parameters).executeScalar ctx ≠
              .error ⟨.eval (.invalidTypes ComparisonOp.between.name types), source⟩ := by
  refine ⟨?_, ?_⟩
  · obtain ⟨s, s', e, hs, -, hreads, -⟩ := parse_reads h
    exact ⟨e, s, s', hs, hreads⟩
  · rintro e ⟨s, s', -, hreads⟩ hkeeps
    -- By induction on the phrase, each layer of which keeps ranges and is a part of it.
    have htakes : n.TakesRanges e := by
      refine Phrase.keeps_node Phrase.keeps_takesRanges hreads.wellFormed ?_ hreads.node
      refine Phrase.everywhere_iff.mpr fun m hm => ⟨Phrase.everywhere_iff.mp hkeeps m hm, ?_⟩
      obtain ⟨layer⟩ := m
      exact hm
    -- An error about values would have been raised by some operator or function in the expression.
    have hvalues (ctx : Context) (types : List String) :
        .error (.invalidTypes ComparisonOp.between.name types) ∉ n.values ctx := by
      intro hmem
      obtain ⟨m, hm, hraises⟩ := Node.exists_raises hmem rfl
      exact htakes.not_raises hm hraises
    refine ⟨htakes, fun backend program hbuild parameters ctx types => ⟨?_, fun source => ?_⟩⟩
    · rw [Expression.execute_of_build _ _ (disciplined_of_parse h) hbuild]
      exact hvalues ctx types
    · rw [Expression.executeScalar_of_build _ _ (disciplined_of_parse h) hbuild]
      intro herror
      cases hscalar : n.isScalar with
      | false =>
          rw [Node.scalar_of_not_isScalar hscalar] at herror
          cases herror
      | true =>
          refine hvalues ctx types ?_
          rw [Node.values_of_isScalar hscalar]
          cases hone : n.scalar ctx with
          | ok value =>
              rw [hone] at herror
              cases herror
          | error error =>
              rw [hone] at herror
              cases herror
              exact List.mem_singleton_self _

/-- `BETWEEN` keeps its bounds between an operator that binds tighter in front of it and one that
binds looser behind it. -/
theorem ranges_kept_between : ∃ n, parse "1+2 BETWEEN 0 AND 3 AND true" .root .full = .ok n ∧
    (∃ e : Phrase, e.IsReadFrom "1+2 BETWEEN 0 AND 3 AND true" .root n ∧ n.TakesRanges e) ∧
    ∀ parameters ctx types, .error (.invalidTypes ComparisonOp.between.name types) ∉
      (Expression.ofNode .instructions n (.pool n.flatten) parameters).execute ctx := by
  let number (i : Int) : Phrase := .mk (.number (decide (i < 0)) false (Number.digitsText i))
  let bounds : Phrase := .mk (.bounds (number 0) (number 3))
  let sum : OpTree Phrase :=
    .node (.binary (.arithmetic .add)) (.leaf (number 1)) (.leaf (number 2))
  let comparison : OpTree Phrase := .node (.binary (.comparison .between)) sum (.leaf bounds)
  let row : OpTree Phrase := .node (.logic .and) comparison (.leaf (.mk (.truth true)))
  have hbounds : bounds.Writes "0 AND 3" :=
    Phrase.writes_bounds (Phrase.writes_int 0) rfl (Phrase.writes_int 3) rfl
  have hsum : sum.IsRow :=
    (.leaf (Phrase.writes_int 1).wellFormed (.inl rfl) : OpTree.IsRow _).node
      (.leaf (Phrase.writes_int 2).wellFormed (.inl rfl)) (by rintro ⟨⟩) (by rintro ⟨⟩)
  have hcomparison : comparison.IsRow :=
    hsum.node (.leaf hbounds.wellFormed (.inr rfl)) (fun _ => rfl) (fun _ => .inl rfl)
  have hrow : row.IsRow :=
    hcomparison.node (.leaf (Phrase.writes_truth true).wellFormed (.inl rfl)) (by rintro ⟨⟩)
      (by rintro ⟨⟩)
  have hwrites : Phrase.WritesItem (.ofTree row) "1+2 BETWEEN 0 AND 3 AND true" :=
    hrow.writes rfl
      ((((OpTree.WritesRow.leaf (Phrase.writes_int 1)).node (.leaf (Phrase.writes_int 2))).node
        (.leaf hbounds)).node (.leaf (Phrase.writes_truth true)))
  have hsteady : (parse "1+2 BETWEEN 0 AND 3 AND true" .root .full).toOption.map Node.isSteady =
      some true := by decide +kernel
  obtain ⟨n, hn, hsteady⟩ := Option.map_eq_some_iff.mp hsteady
  have hparse := Precedence.toOption_eq_some.mp hn
  have hread := (hwrites.1.isTextOf hwrites.2).isReadFrom hparse hsteady
  have hspared : [Operator.binary (.arithmetic .add), .binary (.comparison .between),
      .logic .and].IsChain Operator.SparesRange :=
    .cons_cons (by rintro ⟨⟩) (.cons_cons (fun _ => by decide) (.singleton _))
  have hleaves : ∀ i, (number i).Everywhere Phrase.Layer.KeepsRanges := fun i =>
    .mk trivial (List.forall_mem_nil _)
  have hkeeps : (Phrase.ofTree row).Everywhere Phrase.Layer.KeepsRanges := by
    refine .mk hspared (List.forall_mem_cons.mpr ⟨hleaves 1, ?_⟩)
    refine List.forall_mem_cons.mpr ⟨hleaves 2, List.forall_mem_cons.mpr ⟨.mk trivial ?_, ?_⟩⟩
    · exact List.forall_mem_cons.mpr ⟨hleaves 0, List.forall_mem_singleton.mpr (hleaves 3)⟩
    · exact List.forall_mem_singleton.mpr (.mk trivial (List.forall_mem_nil _))
  obtain ⟨htakes, hexecute⟩ := (ranges_kept hparse).2 _ hread hkeeps
  exact ⟨n, hparse, ⟨_, hread, htakes⟩, fun parameters ctx types =>
    (hexecute .instructions _ rfl parameters ctx types).1⟩

/-- What stands on the right of a comparison with a range. -/
def Node.right? (n : Node) : Option Node :=
  match n.form with
  | .binary (.comparison .between) _ right => some right
  | _ => none

/-- An operator is applied last. -/
def Node.isOperation (n : Node) : Bool :=
  match n.form with
  | .binary .. => true
  | _ => false

/-- The bounds of a range are no operation. -/
theorem Node.isOperation_bounds (lower upper : Node) : (bounds lower upper).isOperation = false :=
  rfl

theorem Node.TakesRanges.right {e : Phrase} {n m : Node} (h : n.TakesRanges e)
    (hright : n.right? = some m) : ∃ lower upper, m = .bounds lower upper := by
  have hrange := h n .self
  unfold Node.right? at hright
  split at hright
  · rename_i hform
    cases hright
    rw [hform] at hrange
    obtain ⟨-, -, -, -, -, -, -, -, -, l, u, -, -, -, -, rfl⟩ := hrange
    exact ⟨l, u, rfl⟩
  · cases hright

/-- The error that a result is. -/
def EvalError.of? : Except EvalError Value → Option EvalError
  | .error e => some e
  | .ok _ => none

/-- A tighter operator behind the bounds, here `LIKE`, takes them, and `BETWEEN` is left without. -/
theorem ranges_taken : ∃ n, parse "5 BETWEEN 6 AND 9 LIKE \"x\"" .root .full = .ok n ∧
    (∃ right, n.right? = some right ∧ ∀ lower upper, right ≠ .bounds lower upper) ∧
    (∀ e, ¬ n.TakesRanges e) ∧ ∀ backend : Backend, ∃ program, backend.build n = .ok program ∧
      ∃ parameters ctx, .error (.invalidTypes ComparisonOp.between.name ["int", "bool"]) ∈
        (Expression.ofNode backend n program parameters).execute ctx := by
  let ctx : Context :=
    { documents := [], root := none, current := none, parameters := []
      collation := .binary, ambient := ⟨.ofDate .epoch, fun _ _ => 0⟩ }
  let errors (n : Node) (backend : Backend) : Option (List EvalError) :=
    (backend.build n).toOption.map fun program =>
      ((Expression.ofNode backend n program []).execute ctx).filterMap EvalError.of?
  let failed : Option (List EvalError) :=
    some [.invalidTypes ComparisonOp.between.name ["int", "bool"]]
  have hparsed : ((parse "5 BETWEEN 6 AND 9 LIKE \"x\"" .root .full).toOption.map fun n =>
      (n.right?.map Node.isOperation, errors n .instructions, errors n .functions)) =
        some (some true, failed, failed) := by decide +kernel
  obtain ⟨n, hn, hall⟩ := Option.map_eq_some_iff.mp hparsed
  obtain ⟨htaken, herrors⟩ := Prod.mk.inj hall
  obtain ⟨hinstructions, hfunctions⟩ := Prod.mk.inj herrors
  obtain ⟨right, hright, hoperation⟩ := Option.map_eq_some_iff.mp htaken
  -- The right side would be an array, which no operation is.
  have hno : ∀ lower upper, right ≠ .bounds lower upper := by
    rintro lower upper rfl
    rw [Node.isOperation_bounds] at hoperation
    cases hoperation
  refine ⟨n, Precedence.toOption_eq_some.mp hn, ⟨right, hright, hno⟩, fun e htakes => ?_,
    fun backend => ?_⟩
  · obtain ⟨lower, upper, hbounds⟩ := htakes.right hright
    exact hno lower upper hbounds
  · have hfails : errors n backend = failed := by cases backend <;> assumption
    obtain ⟨program, hprogram, hfails⟩ := Option.map_eq_some_iff.mp hfails
    refine ⟨program, Precedence.toOption_eq_some.mp hprogram, [], ctx, ?_⟩
    obtain ⟨result, hresult, herror⟩ :=
      List.mem_filterMap.mp (hfails ▸ List.mem_singleton_self _)
    cases result with
    | ok value => cases herror
    | error error =>
        cases herror
        exact hresult

end DocQuery
