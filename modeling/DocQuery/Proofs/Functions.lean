import DocQuery.Plan
import DocQuery.Proofs.Discipline
import DocQuery.Proofs.Meaning
/-!
# DocQuery.Proofs.Functions

The functions of the context keep the meaning. An expression that keeps the discipline
of cardinalities and has no sort in it has a plan, and the plan does what the expression
means; with a sort in it the plan is refused, and for no other reason
(`Node.plan_eq`).

The plan of a node is known once those of its parts are: `Node.planned` says what they
are, and the lemmas on `Plan.ofMap`, `Plan.ofPath` and so on say what is made of them.
-/

namespace DocQuery

open Pool (Evaluator)

namespace Node

/-- There is a sort in the expression. -/
def usesSort : Node → Bool :=
  fold fun _ form =>
    (match form with
      | .sort _ _ _ => true
      | _ => false) || form.children.any (·.2)

/-- The meaning of an expression as a plan. -/
def asPlan (n : Node) : Plan := if n.isScalar then .scalar n.scalar else .sequence n.values

/-- The result, unless there is a sort in the way. -/
def unlessSort {α : Type} (sorts : Bool) (a : α) : Except EvalError α :=
  if sorts then .error (.unsupported "SORT") else .ok a

/-- What becomes of an expression that is to be a plan. -/
def planned (n : Node) : Plan.Attempt := unlessSort n.usesSort n.asPlan

/-- A sort is in an expression if the expression is one or a part has one in it. -/
theorem usesSort_eq (n : Node) :
    n.usesSort = ((match n.form with
      | .sort _ _ _ => true
      | _ => false) || n.children.any usesSort) := by
  obtain ⟨info, form⟩ := n
  rw [usesSort, fold_mk, Form.children_mapParts, List.any_map]
  cases form <;> rfl

/-- The one argument that a part is, a sequence as an array. -/
def argument (n : Node) (ctx : Context) : Except EvalError Value :=
  if n.isScalar then n.scalar ctx else (n.values ctx).collect.map Value.array

/-! ### Plans of parts

A plan is asked for a value, for values, or for an argument. What a part means answers each of
these, whether the part is scalar or not; and where a sort is in the way, it is in the way of all
that is made of the part (`unlessSort`). -/

/-- Asked for a value, the plan of a part gives the one that the part means. -/
theorem asPlan_value (n : Node) : n.asPlan.value n.source = n.scalar := by
  funext ctx
  cases h : n.isScalar with
  | true => simp [asPlan, h, Plan.value]
  | false => simp [asPlan, h, Plan.value, scalar_of_not_isScalar h]

theorem asPlan_values (n : Node) : n.asPlan.values = n.values := by
  funext ctx
  cases h : n.isScalar with
  | true => simp [asPlan, h, Plan.values, values_of_isScalar h]
  | false => simp [asPlan, h, Plan.values]

theorem asPlan_argument (n : Node) : Plan.argument n.asPlan = n.argument := by
  funext ctx
  cases h : n.isScalar <;> simp [asPlan, h, Plan.argument, argument]

theorem unlessSort_map {α β : Type} (sorts : Bool) (a : α) (f : α → β) :
    (unlessSort sorts a).map f = unlessSort sorts (f a) := by
  cases sorts <;> rfl

theorem unlessSort_pure {α β : Type} (sorts : Bool) (a : α) (f : α → β) :
    (unlessSort sorts a >>= fun x => pure (f x)) = unlessSort sorts (f a) := by
  cases sorts <;> rfl

theorem unlessSort_unless {α β : Type} (sorts sorts' : Bool) (a : α) (f : α → β) :
    (unlessSort sorts a >>= fun x => unlessSort sorts' (f x)) =
      unlessSort (sorts || sorts') (f a) := by
  cases sorts <;> rfl

/-- A part with a sort in it refuses the whole; without one the whole is refused for the other parts
only. -/
theorem unlessSort_bind {α β : Type} (sorts sorts' : Bool) (a : α) (f : α → Except EvalError β)
    (b : β) (h : f a = unlessSort sorts' b) :
    unlessSort sorts a >>= f = unlessSort (sorts || sorts') b := by
  cases sorts with
  | true => rfl
  | false => exact h

end Node

namespace Plan

open Node (unlessSort unlessSort_bind unlessSort_pure unlessSort_unless)

/-- A node and what becomes of it as a plan. -/
abbrev part (n : Node) : Part := (n, n.planned)

theorem scalarPart_part (n : Node) : scalarPart (part n) = unlessSort n.usesSort n.scalar :=
  (Node.unlessSort_map _ _ _).trans (congrArg _ n.asPlan_value)

theorem sequencePart_part (n : Node) :
    sequencePart (part n) = unlessSort n.usesSort n.values :=
  (Node.unlessSort_map _ _ _).trans (congrArg _ n.asPlan_values)

theorem argumentPart_part (n : Node) :
    (part n).2.map argument = unlessSort n.usesSort n.argument :=
  (Node.unlessSort_map _ _ _).trans (congrArg _ n.asPlan_argument)

/-- Parts are planned one after the other. -/
theorem mapM_unlessSort {α β γ : Type} {f : β → Except EvalError γ} {g : α → β}
    {sorts : α → Bool} {result : α → γ} {items : List α}
    (h : ∀ a ∈ items, f (g a) = unlessSort (sorts a) (result a)) :
    (items.map g).mapM f = unlessSort (items.any sorts) (items.map result) := by
  -- The first part that is refused is the one that refuses all of them.
  induction items with
  | nil => rfl
  | cons a rest ih =>
      rw [List.map_cons, List.mapM_cons, h a (List.mem_cons_self ..)]
      refine unlessSort_bind _ _ _ _ _ ?_
      rw [ih fun b hb => h b (List.mem_cons_of_mem _ hb)]
      cases rest.any sorts <;> rfl

/-! ### Running parts one after the other

The runs of the plans of parts, one after the other, are what the pool does with the parts, where
the meaning evaluates them. -/

/-- Values of items. -/
theorem runAll_scalar (items : List Node) (ctx : Context) :
    runAll (items.map Node.scalar) ctx = Pool.itemValues Node.evaluator ctx items := by
  unfold runAll
  induction items with
  | nil => rfl
  | cons n rest ih =>
      rw [List.map_cons, List.mapM_cons, ih]
      rfl

/-- Values of arguments, sequences as arrays. -/
theorem runAll_argument (args : List Node) (ctx : Context) :
    runAll (args.map Node.argument) ctx = Pool.arguments Node.evaluator ctx args := by
  unfold runAll
  induction args with
  | nil => rfl
  | cons n rest ih =>
      rw [List.map_cons, List.mapM_cons, ih]
      cases h : n.isScalar with
      | true => simp [Node.argument, Pool.arguments, Node.evaluator, h, Node.scalar]
      | false => simp [Node.argument, Pool.arguments, Node.evaluator, h, Node.values]

/-- Values of entries, with their names. -/
theorem runNamed_scalar (entries : List (String × Node)) (ctx : Context) :
    runNamed (entries.map fun entry => (entry.1, entry.2.scalar)) ctx =
      Pool.entryValues Node.evaluator ctx entries := by
  unfold runNamed
  induction entries with
  | nil => rfl
  | cons entry rest ih =>
      rw [List.map_cons, List.mapM_cons, ih]
      simp [Pool.entryValues, Node.evaluator, Node.scalar]

/-! ### Paths -/

/-- The move of a step that yields one value. -/
def moveOf : PathStep Node → Move
  | .member name => .member name
  | .index place => .index place
  | .indexOf part => .indexOf part.scalar part.source
  | .all | .filter _ | .items => .member ""

/-- A step that yields one value is planned as its move, if there is no sort in it. -/
theorem move_part (source : String) {step : PathStep Node} (h : step.isEnumerable = false) :
    move source (step.map part) =
      unlessSort (step.children.any Node.usesSort) (moveOf step) := by
  cases step with
  | member name => rfl
  | index place => rfl
  | indexOf n =>
      simp only [PathStep.map, move, scalarPart_part, Node.unlessSort_map]
      simp [PathStep.children, moveOf]
  | all | filter _ | items => cases h

/-- The moves of a path, one after the other, follow its steps. A path that may yield more values is
not planned so. -/
theorem foldlM_moveOf (source : String) (ctx : Context) {steps : List (PathStep Node)}
    (h : steps.any PathStep.isEnumerable = false) (value : Value) :
    (steps.map moveOf).foldlM (fun value move => move.run ctx value) value =
      Pool.follow Node.evaluator source ctx value steps := by
  induction steps generalizing value with
  | nil => rfl
  | cons step rest ih =>
      rw [List.any_cons, Bool.or_eq_false_iff] at h
      rw [List.map_cons, List.foldlM_cons]
      cases step with
      | member name => exact ih h.2 _
      | index place => exact ih h.2 _
      | indexOf n =>
          simp only [moveOf, Move.run, Pool.follow, bind_assoc]
          exact bind_congr fun place => bind_congr fun v => ih h.2 v
      | all | filter _ | items => cases h.1

/-- A journey by the moves of a path ends where the path does. -/
theorem travel_moveOf (source : String) (root : PathRoot) (field : String)
    {steps : List (PathStep Node)} (h : steps.any PathStep.isEnumerable = false) (ctx : Context) :
    travel root field (steps.map moveOf) ctx =
      Pool.resolve Node.evaluator source ctx root steps field := by
  unfold travel Pool.resolve Pool.origin
  cases root with
  | document =>
      cases ctx.root with
      | none => rfl
      | some value => exact foldlM_moveOf source ctx h value
  | current =>
      cases ctx.current with
      | none => rfl
      | some value => exact foldlM_moveOf source ctx h value

theorem moves_part (source : String) {steps : List (PathStep Node)}
    (h : steps.any PathStep.isEnumerable = false) :
    (steps.map (PathStep.map part)).mapM (move source) =
      unlessSort ((steps.flatMap PathStep.children).any Node.usesSort) (steps.map moveOf) := by
  rw [List.any_flatMap]
  refine mapM_unlessSort fun step hstep => move_part source ?_
  rw [List.any_eq_false] at h
  simpa using h step hstep

/-! ### Layers

One lemma for each layer that has parts. Each computes what `Plan.ofLayer` makes of the plans of the
parts, and then owes two facts to `planned_eq`: that the sorts in the way are those of the node, and
that the plan runs as the node means. -/

section

variable {info : NodeInfo}

/-- A run that does the step of a scalar node is its plan. -/
theorem asPlan_of_scalar {form : Form Node} (h : info.isScalar = true)
    {run : Context → Except EvalError Value}
    (hrun : ∀ ctx, run ctx =
      Pool.stepScalar Node.evaluator info.source (Node.mk info form).action ctx) :
    Plan.scalar run = (Node.mk info form).asPlan := by
  have hscalar : (Node.mk info form).isScalar = true := h
  rw [Node.asPlan, if_pos hscalar]
  refine congrArg Plan.scalar (funext fun ctx => ?_)
  rw [hrun ctx, Node.scalar_eq, Pool.actionScalar, if_pos hscalar]
  rfl

/-- A run that does the step of a node for sequences is its plan. -/
theorem asPlan_of_sequence {form : Form Node} (h : info.isScalar = false)
    {run : Context → Results}
    (hrun : ∀ ctx, run ctx =
      Pool.stepValues Node.evaluator info.source (Node.mk info form).action ctx) :
    Plan.sequence run = (Node.mk info form).asPlan := by
  have hscalar : (Node.mk info form).isScalar = false := h
  rw [Node.asPlan, hscalar]
  refine congrArg Plan.sequence (funext fun ctx => ?_)
  rw [hrun ctx, Node.values_eq, Pool.actionValues, hscalar]
  rfl

/-- Planning a node comes down to its plan and to the sorts in its parts. -/
theorem planned_eq {form : Form Node} {sorts : Bool} {plan : Plan}
    (hs : (Node.mk info form).usesSort = sorts) (hp : plan = (Node.mk info form).asPlan) :
    unlessSort sorts plan = (Node.mk info form).planned := by
  rw [Node.planned, hs, hp]

/-- A layer without parts is planned as it is. -/
theorem planned_of_leaf {form : Form Node} {plan : Plan}
    (hs : (Node.mk info form).usesSort = false) (hp : plan = (Node.mk info form).asPlan) :
    .ok plan = (Node.mk info form).planned :=
  planned_eq hs hp

/-- The plan of a document, from those of its values. -/
theorem document_part {entries : List (String × Node)} (h : info.isScalar = true) :
    ofLayer info (.document (entries.map fun entry => (entry.1, part entry.2))) =
      (Node.mk info (.document entries)).planned := by
  have hruns : (entries.map fun entry => (entry.1, part entry.2)).mapM
      (fun entry => return (entry.1, ← scalarPart entry.2)) =
      unlessSort (entries.any fun entry => entry.2.usesSort)
        (entries.map fun entry => (entry.1, entry.2.scalar)) := by
    refine mapM_unlessSort fun entry _ => ?_
    rw [scalarPart_part]
    cases entry.2.usesSort <;> rfl
  simp only [ofLayer]
  rw [hruns, unlessSort_pure]
  refine planned_eq ?_ (asPlan_of_scalar h ?_)
  · rw [Node.usesSort_eq]
    simp [Node.children, Node.form, Form.children, Function.comp_def]
  · intro ctx
    rw [runNamed_scalar]
    rfl

theorem array_part {items : List Node} (h : info.isScalar = true) :
    ofLayer info (.array (items.map part)) = (Node.mk info (.array items)).planned := by
  simp only [ofLayer]
  rw [mapM_unlessSort fun n _ => scalarPart_part n, unlessSort_pure]
  refine planned_eq ?_ (asPlan_of_scalar h ?_)
  · rw [Node.usesSort_eq]
    rfl
  · intro ctx
    rw [runAll_scalar]
    rfl

/-- The plan of `MAP`: a selector that is scalar gives one value for each element, another one all
of its values. -/
theorem ofMap_part {source selector : Node} (h : info.isScalar = false) :
    ofMap (part source) (part selector) = (Node.mk info (.map source selector)).planned := by
  simp only [ofMap]
  rw [sequencePart_part]
  -- The source is planned before the selector, so its sort is found first.
  refine (unlessSort_bind _ (selector.usesSort || false) _ _
    (Node.mk info (.map source selector)).asPlan ?_).trans (planned_eq ?_ rfl)
  · refine unlessSort_bind _ false _ _ _ ?_
    cases hs : selector.isScalar with
    | true =>
        simp only [Node.asPlan, hs, if_true]
        refine congrArg Except.ok (asPlan_of_sequence h fun ctx => ?_)
        simp [Node.action, Node.form, Action.ofForm, Pool.stepValues, Node.evaluator, hs,
          Node.scalar, Node.values]
    | false =>
        simp only [Node.asPlan, hs]
        refine congrArg Except.ok (asPlan_of_sequence h fun ctx => ?_)
        simp [Node.action, Node.form, Action.ofForm, Pool.stepValues, Node.evaluator, hs,
          Node.values]
  · rw [Node.usesSort_eq]
    rfl

/-- The plan of `FILTER`. -/
theorem ofFilter_part {source predicate : Node} (h : info.isScalar = false) :
    ofFilter (part source) (part predicate) =
      (Node.mk info (.filter source predicate)).planned := by
  simp only [ofFilter]
  rw [sequencePart_part, scalarPart_part]
  simp only [unlessSort_pure, unlessSort_unless]
  refine planned_eq ?_ (asPlan_of_sequence h fun ctx => rfl)
  rw [Node.usesSort_eq]
  simp [Node.children, Node.form, Form.children]

/-- The plan of a call, of a function that yields a value or one that yields a sequence. -/
theorem ofCall_part {function : Builtin} {args : List Node}
    (h : info.isScalar = function.isScalar) :
    ofCall function (args.map part) = (Node.mk info (.call function args)).planned := by
  have hinvoke (ctx : Context) : (do
      function.apply ctx.collation (← runAll (args.map Node.argument) ctx)) =
      Pool.invoke Node.evaluator ctx function args := by
    rw [runAll_argument]
    rfl
  have hruns : (args.map part).mapM (fun p => p.2.map argument) =
      unlessSort (args.any Node.usesSort) (args.map Node.argument) :=
    mapM_unlessSort fun n _ => argumentPart_part n
  simp only [ofCall]
  rw [hruns]
  refine (unlessSort_bind _ false _ _ (Node.mk info (.call function args)).asPlan ?_).trans
    (planned_eq ?_ rfl)
  · cases hf : function.isScalar with
    | true =>
        simp only [if_true, hinvoke]
        exact congrArg Except.ok (asPlan_of_scalar (h.trans hf) fun ctx => rfl)
    | false =>
        simp only [hinvoke]
        exact congrArg Except.ok (asPlan_of_sequence (h.trans hf) fun ctx => rfl)
  · rw [Node.usesSort_eq, Bool.or_false]
    rfl

/-- There is no sort in a pattern that is written out. -/
theorem usesSort_of_pattern {n : Node} {pattern : Text.Glob}
    (h : Pool.patternOf? n = some pattern) : n.usesSort = false := by
  obtain ⟨info, form⟩ := n
  rw [Node.usesSort_eq]
  cases form <;> simp_all [Pool.patternOf?, Node.form, Node.children, Form.children]

/-- A layer with two parts that is no sort has the sorts of these. -/
theorem usesSort_pair {form : Form Node} {left right : Node} (hc : form.children = [left, right])
    (hf : ∀ source key order, form ≠ .sort source key order) :
    (Node.mk info form).usesSort = (left.usesSort || right.usesSort) := by
  rw [Node.usesSort_eq]
  cases form <;> simp_all [Node.children, Node.form, Form.children]

/-- Where no pattern is written out, a comparison is a layer like any other. -/
theorem action_comparison {op : ComparisonOp} {left right : Node}
    (h : ∀ pattern, op = .like → Pool.patternOf? right = some pattern → False) :
    (Node.mk info (.binary (.comparison op) left right)).action =
      .layer (.binary (.comparison op) left right) := by
  cases op with
  | like =>
      simp only [Node.action, Node.form, Action.ofForm]
      cases hp : Pool.patternOf? right with
      | none => rfl
      | some pattern => exact (h pattern rfl hp).elim
  | _ => rfl

/-- The same for a comparison with a quantifier. -/
theorem action_quantified {quantifier : Quantifier} {op : ComparisonOp} {left right : Node}
    (h : ∀ pattern, op = .like → Pool.patternOf? right = some pattern → False) :
    (Node.mk info (.quantified quantifier op left right)).action =
      .layer (.quantified quantifier op left right) := by
  cases op with
  | like =>
      simp only [Node.action, Node.form, Action.ofForm]
      cases hp : Pool.patternOf? right with
      | none => rfl
      | some pattern => exact (h pattern rfl hp).elim
  | _ => rfl

theorem ofArithmetic_part {op : ArithmeticOp} {left right : Node} (h : info.isScalar = true) :
    ofArithmetic op (part left) (part right) =
      (Node.mk info (.binary (.arithmetic op) left right)).planned := by
  simp only [ofArithmetic]
  rw [scalarPart_part, scalarPart_part]
  simp only [unlessSort_pure, unlessSort_unless]
  refine planned_eq ?_ (asPlan_of_scalar h fun ctx => rfl)
  rw [usesSort_pair rfl (by simp), Bool.or_comm]

/-- The plan of a comparison. A pattern that is written out is compiled once, and it is the same
pattern for the plan and for the pool. -/
theorem ofComparison_part {op : ComparisonOp} {left right : Node} (h : info.isScalar = true) :
    ofComparison op (part left) (part right) =
      (Node.mk info (.binary (.comparison op) left right)).planned := by
  have hsorts : (Node.mk info (.binary (.comparison op) left right)).usesSort =
      (left.usesSort || right.usesSort) := usesSort_pair rfl (by simp)
  have hpattern : patternOf? (part right) = Pool.patternOf? right := rfl
  unfold ofComparison
  split
  · rename_i pattern hp
    rw [hpattern] at hp
    rw [scalarPart_part]
    simp only [unlessSort_pure]
    refine planned_eq ?_ (asPlan_of_scalar h fun ctx => ?_)
    · rw [hsorts, usesSort_of_pattern hp, Bool.or_false]
    · simp only [Node.action, Node.form, Action.ofForm, hp]
      rfl
  · rename_i hp
    -- The right operand is planned before the left one, hence the change of sides.
    rw [scalarPart_part, scalarPart_part]
    simp only [unlessSort_pure, unlessSort_unless]
    refine planned_eq ?_ (asPlan_of_scalar h fun ctx => ?_)
    · rw [hsorts, Bool.or_comm]
    · rw [action_comparison hp]
      simp only [Pool.stepScalar, Pool.operate]
      refine bind_congr fun a => bind_congr fun b => ?_
      cases Comparison.apply ctx.collation _ a b <;> rfl

/-- The plan of a comparison with a quantifier, whose left side is a sequence of any length. -/
theorem ofQuantified_part {quantifier : Quantifier} {op : ComparisonOp} {left right : Node}
    (h : info.isScalar = true) :
    ofQuantified quantifier op (part left) (part right) =
      (Node.mk info (.quantified quantifier op left right)).planned := by
  have hsorts : (Node.mk info (.quantified quantifier op left right)).usesSort =
      (left.usesSort || right.usesSort) := usesSort_pair rfl (by simp)
  have hpattern : patternOf? (part right) = Pool.patternOf? right := rfl
  unfold ofQuantified
  split
  · rename_i pattern hp
    rw [hpattern] at hp
    rw [sequencePart_part]
    simp only [unlessSort_pure]
    refine planned_eq ?_ (asPlan_of_scalar h fun ctx => ?_)
    · rw [hsorts, usesSort_of_pattern hp, Bool.or_false]
    · simp only [Node.action, Node.form, Action.ofForm, hp, Pool.stepScalar]
      rw [← Node.values]
      cases quantifier.holds _ _ <;> rfl
  · rename_i hp
    rw [scalarPart_part, sequencePart_part]
    simp only [unlessSort_pure, unlessSort_unless]
    refine planned_eq ?_ (asPlan_of_scalar h fun ctx => ?_)
    · rw [hsorts, Bool.or_comm]
    · rw [action_quantified hp]
      rfl

/-- The plan of `AND` and `OR`, which evaluate the right operand only if the left one leaves it
open. -/
theorem ofLogic_part {op : LogicOp} {left right : Node} (h : info.isScalar = true) :
    ofLogic op (part left) (part right) = (Node.mk info (.logic op left right)).planned := by
  simp only [ofLogic]
  rw [scalarPart_part, scalarPart_part]
  simp only [unlessSort_pure, unlessSort_unless]
  refine planned_eq (usesSort_pair rfl (by simp)) (asPlan_of_scalar h fun ctx => ?_)
  refine bind_congr fun a => ?_
  cases op <;> cases a.isTrue <;> rfl

/-- The plan of a choice. Whether it is scalar decides how both branches are run. -/
theorem ofConditional_part {test ifTrue ifFalse : Node} :
    ofConditional info.isScalar (part test) (part ifTrue) (part ifFalse) =
      (Node.mk info (.conditional test ifTrue ifFalse)).planned := by
  have hsorts : (Node.mk info (.conditional test ifTrue ifFalse)).usesSort =
      (test.usesSort || (ifTrue.usesSort || ifFalse.usesSort)) := by
    rw [Node.usesSort_eq]
    simp [Node.children, Node.form, Form.children]
  simp only [ofConditional]
  rw [scalarPart_part]
  cases h : info.isScalar with
  | true =>
      simp only [if_true]
      rw [scalarPart_part, scalarPart_part]
      simp only [unlessSort_pure, unlessSort_unless]
      exact planned_eq hsorts (asPlan_of_scalar h fun ctx => rfl)
  | false =>
      simp only [Bool.false_eq_true, if_false]
      rw [sequencePart_part, sequencePart_part]
      simp only [unlessSort_pure, unlessSort_unless]
      refine planned_eq hsorts (asPlan_of_sequence h fun ctx => ?_)
      rfl

/-- The name that a path is known by does not depend on what its steps refer to. -/
theorem firstField_part (steps : List (PathStep Node)) :
    (match steps.map (PathStep.map part) with
      | .member name :: _ => name
      | _ => "") = Pool.firstField steps := by
  cases steps with
  | nil => rfl
  | cons step rest => cases step <;> rfl

theorem usesSort_path (root : PathRoot) (steps : List (PathStep Node)) :
    (Node.mk info (.path root steps)).usesSort =
      (steps.flatMap PathStep.children).any Node.usesSort := by
  rw [Node.usesSort_eq]
  rfl

/-- A path of single steps is planned move by move. -/
theorem ofPath_single {root : PathRoot} {steps : List (PathStep Node)}
    (h : info.isScalar = true) (hsteps : steps.any PathStep.isEnumerable = false) :
    (do
      let moves ← (steps.map (PathStep.map part)).mapM (move info.source)
      return .scalar (travel root (Pool.firstField steps) moves)) =
      (Node.mk info (.path root steps)).planned := by
  rw [moves_part _ hsteps, unlessSort_pure]
  refine planned_eq (usesSort_path root steps) (asPlan_of_scalar h fun ctx => ?_)
  rw [travel_moveOf info.source _ _ hsteps]
  rfl

/-- The plan of a path. Only the last step may yield more than one value; those in front of it are
moves. -/
theorem ofPath_part {root : PathRoot} {steps : List (PathStep Node)}
    (h : info.isScalar = !steps.any PathStep.isEnumerable)
    (hlast : steps.dropLast.any PathStep.isEnumerable = false) :
    ofPath info.source root (steps.map (PathStep.map part)) =
      (Node.mk info (.path root steps)).planned := by
  unfold ofPath
  extract_lets field
  have hfield : field = Pool.firstField steps := firstField_part steps
  rw [hfield]
  clear hfield field
  rcases List.eq_nil_or_concat' steps with rfl | ⟨init, last, rfl⟩
  · exact ofPath_single h rfl
  · rw [List.dropLast_concat] at hlast
    rw [List.any_append, hlast, Bool.false_or] at h
    -- What leads up to the last step is planned as moves, whatever the last step is.
    have hinit := moves_part info.source hlast
    have hsorts : (Node.mk info (.path root (init ++ [last]))).usesSort = _ := usesSort_path root _
    have htravel := travel_moveOf info.source root (Pool.firstField (init ++ [last])) hlast
    simp only [List.map_append, List.map_cons, List.map_nil, List.dropLast_concat,
      List.getLast?_concat]
    cases last with
    | member _ | index _ | indexOf _ =>
        simp only [PathStep.map]
        rw [← ofPath_single (by simpa [PathStep.isEnumerable] using h)
          (by simp [List.any_append, hlast, PathStep.isEnumerable])]
        simp only [List.map_append, List.map_cons, List.map_nil, PathStep.map]
    | all | items =>
        simp only [PathStep.map]
        rw [hinit, unlessSort_pure]
        refine planned_eq ?_ (asPlan_of_sequence (by simpa [PathStep.isEnumerable] using h) ?_)
        · simpa [PathStep.children] using hsorts
        · intro ctx
          rw [htravel]
          simp [Node.action, Node.form, Action.ofForm, Pool.stepValues, Pool.pathValues]
    | filter condition =>
        simp only [PathStep.map]
        rw [hinit, scalarPart_part]
        simp only [unlessSort_pure, unlessSort_unless]
        refine planned_eq ?_ (asPlan_of_sequence (by simpa [PathStep.isEnumerable] using h) ?_)
        · simpa [PathStep.children] using hsorts
        · intro ctx
          rw [htravel]
          simp only [Node.action, Node.form, Action.ofForm, Pool.stepValues, Pool.pathValues,
            List.dropLast_concat, List.getLast?_concat]
          cases Pool.resolve Node.evaluator info.source ctx root init _ <;> rfl

/-- A layer that keeps the discipline becomes the plan of what it means. -/
theorem ofLayer_part {form : Form Node} (h : form.Disciplined info) :
    ofLayer info (form.mapParts part) = (Node.mk info form).planned := by
  cases form with
  | constant value | parameter name | generate generator site =>
      exact planned_of_leaf (Node.usesSort_eq _) (asPlan_of_scalar h fun ctx => rfl)
  | documents =>
      exact planned_of_leaf (Node.usesSort_eq _) (asPlan_of_sequence h fun ctx => rfl)
  | document entries => exact document_part h.1
  | array items => exact array_part h.1
  | path root steps => exact ofPath_part h.1 h.2.1
  | map source selector => exact ofMap_part h.1
  | filter source predicate => exact ofFilter_part h.1
  | sort source key order =>
      -- Here alone the plan is refused by the layer itself.
      have hsort : (Node.mk info (.sort source key order)).usesSort = true := by
        rw [Node.usesSort_eq]
        rfl
      simp only [Node.planned, hsort]
      rfl
  | call function args => exact ofCall_part h.1
  | binary op left right =>
      rcases op with op | op
      · exact ofArithmetic_part h.1
      · exact ofComparison_part h.1
  | quantified quantifier op left right => exact ofQuantified_part h.1
  | logic op left right => exact ofLogic_part h.1
  | conditional test ifTrue ifFalse => exact ofConditional_part

end

end Plan

/-- An expression that keeps the discipline becomes a plan of what it means, unless there
is a sort in it. -/
theorem Node.plan_eq {n : Node} (h : n.Disciplined) : n.plan = n.planned := by
  induction n using Node.induction with
  | step n ih =>
      obtain ⟨info, form⟩ := n
      -- The discipline holds in all parts, so they are planned as they mean.
      have hparts : (form.mapParts fun n => (n, n.plan)) = form.mapParts Plan.part :=
        Form.mapParts_congr fun n hn => congrArg (Prod.mk n) (ih n hn (h.part hn))
      rw [Node.plan, Node.fold_mk]
      exact (congrArg (Plan.ofLayer info) hparts).trans (Plan.ofLayer_part h.form)

end DocQuery
