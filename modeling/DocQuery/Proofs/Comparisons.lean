import DocQuery.Proofs.Parsed
/-!
# DocQuery.Proofs.Comparisons

Comparisons of expressions, evaluated. A comparison with a pattern that is written out has an
instruction of its own, and its pattern is read only once; it yields what every comparison yields
of the values of its two sides (`Node.scalar_comparison`, `Node.scalar_quantified`). One value that
is made a sequence is spread, so what is neither an array nor a binary stays by itself
(`Node.values_asSequence`).

A backend that makes something of an expression does so of its parts (`Backend.build_part`), and one
that makes something of both sides of an operator does so of the two joined by it
(`Backend.build_combine`).
-/

namespace DocQuery

open Pool (firstField)

section

variable {ε δ α β : Type} {x : Except ε α}

/-- What yields something in the end does so in each of its steps. -/
theorem bind_eq_ok {f : α → Except ε β} {b : β} :
    x >>= f = .ok b ↔ ∃ a, x = .ok a ∧ f a = .ok b := by
  cases x with
  | error e => exact ⟨by rintro ⟨⟩, by rintro ⟨_, ⟨⟩, _⟩⟩
  | ok a => exact ⟨fun h => ⟨a, rfl, h⟩, by rintro ⟨_, ⟨⟩, h⟩; exact h⟩

theorem map_eq_ok {g : α → β} {b : β} : x.map g = .ok b ↔ ∃ a, x = .ok a ∧ b = g a := by
  cases x <;> simp [Except.map, eq_comm]

theorem map_eq_error {g : α → β} {e : ε} : x.map g = .error e ↔ x = .error e := by
  cases x <;> simp [Except.map]

theorem mapError_eq_ok {g : ε → δ} {a : α} : x.mapError g = .ok a ↔ x = .ok a := by
  cases x <;> simp [Except.mapError]

theorem mapError_eq_error {g : ε → δ} {d : δ} :
    x.mapError g = .error d ↔ ∃ e, x = .error e ∧ d = g e := by
  cases x <;> simp [Except.mapError, eq_comm]

end

namespace Value

/-- The value is taken as several where a sequence is asked for. -/
def isSpread : Value → Bool
  | .array _ | .binary _ => true
  | _ => false

theorem spread_eq_self {value : Value} (h : value.isSpread = false) : value.spread = [value] := by
  cases value with
  | array items | binary bytes => cases h
  | _ => rfl

end Value

namespace Node

/-! ### One value made a sequence -/

/-- An expression that yields one value does so as its action says. -/
theorem scalar_of_isScalar {n : Node} (h : n.isScalar = true) (ctx : Context) :
    n.scalar ctx = Pool.stepScalar evaluator n.source n.action ctx := by
  rw [scalar_eq, Pool.actionScalar, if_pos h]

theorem values_of_not_isScalar {n : Node} (h : n.isScalar = false) (ctx : Context) :
    n.values ctx = Pool.stepValues evaluator n.source n.action ctx := by
  rw [values_eq, Pool.actionValues, h, if_neg Bool.false_ne_true]

/-- The text of a path is told only where the path fails. -/
theorem follow_ok {source source' : String} {ctx : Context} {steps : List (PathStep Node)}
    {start value : Value} (h : Pool.follow evaluator source ctx start steps = .ok value) :
    Pool.follow evaluator source' ctx start steps = .ok value := by
  induction steps generalizing start with
  | nil => exact h
  | cons step rest ih =>
      cases step with
      | member name => exact ih h
      | index place => exact ih h
      | indexOf place =>
          simp only [Pool.follow] at h ⊢
          obtain ⟨index, hplace, h⟩ := bind_eq_ok.mp h
          obtain ⟨element, helement, h⟩ := bind_eq_ok.mp h
          exact bind_eq_ok.mpr ⟨index, hplace, bind_eq_ok.mpr ⟨element, helement, ih h⟩⟩
      | all | filter condition | items => cases h

theorem resolve_ok {source source' field : String} {ctx : Context} {root : PathRoot}
    {steps : List (PathStep Node)} {value : Value}
    (h : Pool.resolve evaluator source ctx root steps field = .ok value) :
    Pool.resolve evaluator source' ctx root steps field = .ok value := by
  obtain ⟨start, horigin, h⟩ := bind_eq_ok.mp h
  exact bind_eq_ok.mpr ⟨start, horigin, follow_ok h⟩

/-- The call that makes a sequence of a value yields its elements. -/
theorem values_call_items {m n : Node} (hm : m.isScalar = false) (hform : m.form = .call .items [n])
    (hn : n.isScalar = true) {ctx : Context} {value : Value} (h : n.scalar ctx = .ok value) :
    m.values ctx = .ofValues value.spread := by
  have harg : Pool.arguments evaluator ctx [n] = .ok [value] := by
    simp only [Pool.arguments]
    rw [show evaluator.isScalar n = true from hn, show evaluator.scalar n ctx = .ok value from h]
    rfl
  have hinvoke : Pool.invoke evaluator ctx .items [n] = .ok (.many value.spread) := by
    unfold Pool.invoke
    rw [harg]
    rfl
  rw [values_of_not_isScalar hm, action, hform]
  change Results.ofExcept ((Pool.invoke evaluator ctx .items [n]).map CallResult.toValues) = _
  rw [hinvoke]
  rfl

/-- The one value of an expression that is taken as a sequence is spread. -/
theorem values_asSequence {n : Node} (hn : n.isScalar = true) {ctx : Context} {value : Value}
    (h : n.scalar ctx = .ok value) : n.asSequence.values ctx = .ofValues value.spread := by
  rw [asSequence, if_pos hn]
  obtain ⟨info, form⟩ := n
  cases form with
  | path root steps =>
      simp only [Node.spread]
      split
      · exact values_call_items rfl rfl hn h
      · -- The step that is added comes last, so the steps in front of it lead to the value.
        rw [scalar_of_isScalar hn] at h
        have hvalue : Pool.resolve evaluator (info.source ++ "[*]") ctx root steps
            (firstField steps) = .ok value := resolve_ok h
        rw [values_of_not_isScalar rfl]
        change Pool.pathValues evaluator (info.source ++ "[*]") ctx root (steps ++ [.items]) = _
        rw [Pool.pathValues, Setting.firstField_concat rfl, List.dropLast_concat,
          List.getLast?_concat]
        simp only [hvalue]
        rfl
  | _ => exact values_call_items rfl rfl hn h

/-! ### Comparisons -/

/-- A pattern that is written out is the value of its node. -/
theorem scalar_of_pattern {n : Node} {pattern : Text.Glob} (h : Pool.patternOf? n = some pattern)
    (hn : n.isScalar = true) (ctx : Context) :
    ∃ s : String, pattern = .ofText s.toList ∧ n.scalar ctx = .ok (.string s) := by
  unfold Pool.patternOf? at h
  split at h
  · rename_i s hform
    cases h
    refine ⟨s, rfl, ?_⟩
    rw [scalar_of_isScalar hn, action, hform]
    rfl
  · cases h

theorem not_pattern {op : ComparisonOp} {right : Node}
    (h : ¬ (op = .like ∧ (Pool.patternOf? right).isSome = true)) (pattern : Text.Glob)
    (hop : op = .like) (hp : Pool.patternOf? right = some pattern) : False :=
  h ⟨hop, by rw [hp]; rfl⟩

/-- A comparison compares the values of its sides, whether its pattern is written out or not. -/
theorem scalar_comparison {n left right : Node} {op : ComparisonOp} (hn : n.isScalar = true)
    (hform : n.form = .binary (.comparison op) left right) (hright : right.isScalar = true)
    (ctx : Context) :
    n.scalar ctx = (do
      let a ← left.scalar ctx
      let b ← right.scalar ctx
      (Comparison.apply ctx.collation op a b).map Value.boolean) := by
  obtain ⟨info, layer⟩ := n
  obtain rfl : layer = _ := hform
  rw [scalar_of_isScalar hn]
  by_cases h : op = .like ∧ (Pool.patternOf? right).isSome = true
  · obtain ⟨rfl, hsome⟩ := h
    obtain ⟨pattern, hpattern⟩ := Option.isSome_iff_exists.mp hsome
    obtain ⟨s, rfl, hs⟩ := scalar_of_pattern hpattern hright ctx
    rw [hs]
    simp only [action, form, Action.ofForm, hpattern]
    rfl
  · rw [Plan.action_comparison (not_pattern h)]
    rfl

/-- A quantified comparison compares the values on its left with the one on its right, whether its
pattern is written out or not. -/
theorem scalar_quantified {n left right : Node} {quantifier : Quantifier} {op : ComparisonOp}
    (hn : n.isScalar = true) (hform : n.form = .quantified quantifier op left right)
    (hright : right.isScalar = true) (ctx : Context) :
    n.scalar ctx = (do
      let b ← right.scalar ctx
      (quantifier.holds (fun a => Comparison.apply ctx.collation op a b)
        (left.values ctx)).map Value.boolean) := by
  obtain ⟨info, layer⟩ := n
  obtain rfl : layer = _ := hform
  rw [scalar_of_isScalar hn]
  by_cases h : op = .like ∧ (Pool.patternOf? right).isSome = true
  · obtain ⟨rfl, hsome⟩ := h
    obtain ⟨pattern, hpattern⟩ := Option.isSome_iff_exists.mp hsome
    obtain ⟨s, rfl, hs⟩ := scalar_of_pattern hpattern hright ctx
    rw [hs]
    simp only [action, form, Action.ofForm, hpattern]
    rfl
  · rw [Plan.action_quantified (not_pattern h)]
    change (do
      let b ← right.scalar ctx
      let holds ← quantifier.holds (fun a => Comparison.apply ctx.collation op a b)
        (left.values ctx)
      return Value.boolean holds) = _
    refine bind_congr fun b => ?_
    cases quantifier.holds (fun a => Comparison.apply ctx.collation op a b) (left.values ctx) <;>
      rfl

/-! ### What a backend makes of parts and of what is put together from them -/

/-- Making a sequence of an expression brings no sort into it. -/
theorem usesSort_asSequence (n : Node) : n.asSequence.usesSort = n.usesSort := by
  have hcall (info : NodeInfo) : (mk info (.call .items [n])).usesSort = n.usesSort := by
    rw [usesSort_eq]
    simp [children, form, Form.children]
  unfold asSequence
  split
  · obtain ⟨info, form⟩ := n
    cases form with
    | path root steps =>
        simp only [Node.spread]
        split
        · exact hcall _
        · rw [usesSort_eq, usesSort_eq]
          simp [children, Node.form, Form.children, PathStep.children]
    | _ => exact hcall _
  · rfl

theorem usesSort_operation (op : Operator) (left right : Node) :
    (operation op left right).usesSort = (left.usesSort || right.usesSort) := by
  cases op <;> exact Plan.usesSort_pair rfl (by rintro _ _ _ ⟨⟩)

section

variable {op : Operator} {left right n : Node} (h : Precedence.combine op left right = .ok n)

include h

theorem isScalar_of_combine : n.isScalar = true := by
  obtain ⟨-, -, rfl⟩ := Precedence.combine_eq_ok.mp h
  cases op <;> rfl

theorem usesSort_of_combine : n.usesSort = (left.usesSort || right.usesSort) := by
  obtain ⟨-, -, rfl⟩ := Precedence.combine_eq_ok.mp h
  rw [usesSort_operation]
  cases op with
  | quantified quantifier op => rw [Precedence.takenLeft, usesSort_asSequence]
  | binary op | logic op => rfl

end

end Node

/-- Instructions are made of every expression, functions of the context of every one without a
sort. -/
theorem Backend.exists_build {n : Node} (hn : n.Disciplined) {backend : Backend} :
    (∃ program, backend.build n = .ok program) ↔ (backend = .functions → n.usesSort = false) := by
  cases backend with
  | instructions => exact iff_of_true ⟨_, rfl⟩ (by rintro ⟨⟩)
  | functions =>
      rw [Backend.build, Node.plan_eq hn, Node.planned]
      cases n.usesSort with
      | true => exact iff_of_false (by rintro ⟨_, ⟨⟩⟩) (by simp)
      | false => exact iff_of_true ⟨_, rfl⟩ fun _ => rfl

/-- What makes something of an expression does so of its parts. -/
theorem Backend.build_part {n part : Node} (hn : n.Disciplined) (hpart : part ∈ n.children)
    {backend : Backend} {program : Program} (h : backend.build n = .ok program) :
    ∃ program, backend.build part = .ok program := by
  refine (exists_build (hn.part hpart)).mpr fun hfunctions => ?_
  have hsort := (exists_build hn).mp ⟨program, h⟩ hfunctions
  rw [Node.usesSort_eq, Bool.or_eq_false_iff] at hsort
  exact Bool.eq_false_iff.mpr (List.any_eq_false.mp hsort.2 part hpart)

/-- What makes something of both sides of an operator does so of the two joined by it. -/
theorem Backend.build_combine {op : Operator} {left right n : Node} (hl : left.Disciplined)
    (hr : right.Disciplined) (h : Precedence.combine op left right = .ok n) {backend : Backend}
    {l r : Program} (hlb : backend.build left = .ok l) (hrb : backend.build right = .ok r) :
    ∃ program, backend.build n = .ok program := by
  refine (exists_build (hl.combine hr h)).mpr fun hfunctions => ?_
  rw [Node.usesSort_of_combine h, (exists_build hl).mp ⟨l, hlb⟩ hfunctions,
    (exists_build hr).mp ⟨r, hrb⟩ hfunctions]
  rfl

/-- What a backend makes of an expression that yields one value yields a sequence of it. -/
theorem Expression.execute_one {n : Node} (hn : n.Disciplined) (hscalar : n.isScalar = true)
    {backend : Backend} {program : Program} (h : backend.build n = .ok program)
    (parameters : Document) (ctx : Context) :
    (ofNode backend n program parameters).execute ctx = [n.scalar ctx] := by
  rw [execute_of_build parameters ctx hn h, Node.values_of_isScalar hscalar]
  rfl

end DocQuery
