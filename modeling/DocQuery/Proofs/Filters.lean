import DocQuery.Proofs.Parsed
/-!
# DocQuery.Proofs.Filters

The four ways to write a filter: as a condition behind a path or as a call, one condition after
the other or both joined by `AND`. They are one filter on either backend.

A backend is taken here as two functions of a node: what the node yields (`Backend.run`) and what it
yields where one value is asked for (`Backend.runOne`). With them a filter, a path that ends in a
condition and a conjunction each have one equation, the same for both backends, and the laws of
filters follow from a law of sequences (`Results.keep_keep`).
-/

namespace DocQuery

/-! ### Sequences -/

namespace Value

@[simp] theorem isTrue_boolean (b : Bool) : (Value.boolean b).isTrue = b := rfl

/-- What two results say together: the second counts only where the first is true. -/
def both (first second : Except EvalError Value) : Except EvalError Value := do
  if (← first).isTrue then return .boolean (← second).isTrue else return .boolean false

variable {decided : Value} (second : Except EvalError Value)

@[simp] theorem both_error (error : EvalError) : both (.error error) second = .error error := rfl

theorem both_false (h : decided.isTrue = false) :
    both (.ok decided) second = .ok (.boolean false) := by
  simp only [both, bind, Except.bind, h]
  rfl

theorem both_true (h : decided.isTrue = true) :
    both (.ok decided) second = second.map fun result => .boolean result.isTrue := by
  simp only [both, bind, Except.bind, h, if_true]
  rfl

end Value

/-- What two filters leave, one behind the other, is what one filter with both conditions leaves;
an error stays where it was, whichever condition or element it came from. -/
theorem Results.keep_keep (first second : Value → Except EvalError Value) (results : Results) :
    (results.keep first).keep second =
      results.keep fun element => Value.both (first element) (second element) := by
  induction results with
  | nil => rfl
  | cons element rest ih =>
      cases element with
      | error error => exact congrArg (Except.error error :: ·) ih
      | ok value =>
          cases hfirst : first value with
          | error error => simp only [keep, hfirst, Value.both_error, ih]
          | ok decided =>
              cases hdecided : decided.isTrue with
              | false => simp [keep, hfirst, hdecided, Value.both_false _ hdecided, ih]
              | true =>
                  rw [keep, keep, hfirst, Value.both_true _ hdecided]
                  cases hsecond : second value with
                  | error error => simp [keep, hdecided, hsecond, Except.map, ih]
                  | ok result =>
                      simp only [hdecided, if_true, keep, hsecond, Except.map, ih]
                      rfl

/-! ### Backends as functions of a node -/

namespace Backend

variable (backend : Backend)

/-- What an expression yields in every context once it has been made into a program, or why it is
refused. -/
def run (n : Node) : Except EvalError (Context → Results) :=
  (backend.build n).map fun program => (Expression.ofNode backend n program []).execute

/-- What an expression yields in the place of one value. -/
def runOne (n : Node) : Except EvalError (Context → Except EvalError Value) :=
  match backend with
  | .instructions => .ok n.scalar
  | .functions => Plan.scalarPart (n, n.plan)

theorem run_instructions (n : Node) : Backend.instructions.run n = .ok n.values :=
  congrArg Except.ok (funext (Expression.execute_pool []))

theorem run_functions (n : Node) : Backend.functions.run n = n.plan.map Plan.values := by
  rw [run, build]
  cases n.plan <;> rfl

end Backend

/-! ### Filters, conjunctions and conditions behind a path -/

section

variable (backend : Backend) (source predicate left right : Node)

theorem Node.values_filter (ctx : Context) :
    (Node.filter source predicate).values ctx =
      (source.values ctx).keep fun element => predicate.scalar (ctx.withCurrent element) :=
  values_eq _ ctx

theorem Node.plan_filter :
    (Node.filter source predicate).plan =
      Plan.ofFilter (source, source.plan) (predicate, predicate.plan) :=
  fold_mk _ _ _

/-- A filter yields the elements of its sequence for which its predicate holds. -/
theorem Backend.run_filter :
    backend.run (.filter source predicate) = do
      let elements ← backend.run source
      let condition ← backend.runOne predicate
      return fun ctx =>
        (elements ctx).keep fun element => condition (ctx.withCurrent element) := by
  cases backend with
  | instructions =>
      rw [run_instructions, run_instructions]
      exact congrArg Except.ok (funext (Node.values_filter source predicate))
  | functions =>
      rw [run_functions, run_functions, Node.plan_filter, Plan.ofFilter, runOne, Plan.sequencePart]
      cases source.plan with
      | error error => rfl
      | ok plan => cases Plan.scalarPart (predicate, predicate.plan) <;> rfl

theorem Node.scalar_and (ctx : Context) :
    (Node.operation (.logic .and) left right).scalar ctx =
      Value.both (left.scalar ctx) (right.scalar ctx) := by
  refine (scalar_eq _ ctx).trans (bind_congr fun result => ?_)
  cases result.isTrue <;> rfl

theorem Node.plan_and :
    (Node.operation (.logic .and) left right).plan =
      Plan.ofLogic .and (left, left.plan) (right, right.plan) :=
  fold_mk _ _ _

/-- A conjunction asks its right side only where the left one holds. -/
theorem Backend.runOne_and :
    backend.runOne (.operation (.logic .and) left right) = do
      let first ← backend.runOne left
      let second ← backend.runOne right
      return fun ctx => Value.both (first ctx) (second ctx) := by
  cases backend with
  | instructions => exact congrArg Except.ok (funext (Node.scalar_and left right))
  | functions =>
      rw [runOne, runOne, runOne, Node.plan_and, Plan.ofLogic, Plan.scalarPart]
      cases Plan.scalarPart (left, left.plan) with
      | error error => rfl
      | ok first =>
          cases Plan.scalarPart (right, right.plan) with
          | error error => rfl
          | ok second =>
              refine congrArg Except.ok (funext fun ctx => bind_congr fun result => ?_)
              cases result.isTrue <;> rfl

end

/-! ### Conditions behind a path -/

/-- Steps of one value lead to the same value, whatever the text of the path is. -/
theorem Pool.follow_source {steps : List (PathStep Node)}
    (h : steps.any PathStep.isEnumerable = false) (parts : Evaluator Node)
    (source source' : String) (ctx : Context) (value : Value) :
    follow parts source ctx value steps = follow parts source' ctx value steps := by
  induction steps generalizing value with
  | nil => rfl
  | cons step rest ih =>
      obtain ⟨hstep, hrest⟩ := Bool.or_eq_false_iff.mp h
      cases step with
      | member name => exact ih hrest _
      | index place => exact ih hrest _
      | indexOf place => exact bind_congr fun index => bind_congr fun value => ih hrest value
      | all | filter _ | items => cases hstep

theorem Pool.resolve_source {steps : List (PathStep Node)}
    (h : steps.any PathStep.isEnumerable = false) (parts : Evaluator Node)
    (source source' : String) (ctx : Context) (root : PathRoot) (field : String) :
    resolve parts source ctx root steps field = resolve parts source' ctx root steps field :=
  bind_congr fun value => follow_source h parts source source' ctx value

/-- Steps of one value have the same moves, whatever the text of the path is. -/
theorem Plan.moves_source {steps : List (PathStep Plan.Part)}
    (h : steps.any PathStep.isEnumerable = false) (source source' : String) :
    steps.mapM (move source) = steps.mapM (move source') := by
  induction steps with
  | nil => rfl
  | cons step rest ih =>
      obtain ⟨hstep, hrest⟩ := Bool.or_eq_false_iff.mp h
      have hmove : move source step = move source' step := by
        cases step with
        | member _ | index _ | indexOf _ => rfl
        | all | filter _ | items => cases hstep
      rw [List.mapM_cons, List.mapM_cons, hmove, ih hrest]

/-- The elements of the value that was found for which a condition holds, or the error alone. -/
theorem Results.keep_elements (test : Value → Except EvalError Value)
    (found : Except EvalError Value) :
    (match found with
      | .error error => failed error
      | .ok value => (ofValues value.elements).keep test) =
    (ofExcept (found.map Value.elements)).keep test := by
  cases found <;> rfl

section

variable (fields : Fields) (root : PathRoot) {steps : List (PathStep Node)} (condition : Node)

theorem Node.values_path (h : steps.any PathStep.isEnumerable = true) (ctx : Context) :
    (Node.path fields root steps).values ctx =
      Pool.pathValues evaluator (Node.path fields root steps).source ctx root steps := by
  have hmany : (Node.path fields root steps).isScalar = false := by simp [Node.path, h]
  rw [values_eq, Pool.actionValues, hmany]
  rfl

/-- A condition behind a path is a filter of all elements there. -/
theorem Node.values_path_filter (h : steps.any PathStep.isEnumerable = false) (ctx : Context) :
    (Node.path fields root (steps ++ [.filter condition])).values ctx =
      ((Node.path fields root (steps ++ [.all])).values ctx).keep fun element =>
        condition.scalar (ctx.withCurrent element) := by
  have hfilter : Pool.firstField (steps ++ [.filter condition]) = _ :=
    Setting.firstField_concat rfl steps
  have hall : Pool.firstField (steps ++ [.all]) = _ := Setting.firstField_concat rfl steps
  rw [values_path _ _ (by simp [PathStep.isEnumerable]),
    values_path _ _ (by simp [PathStep.isEnumerable])]
  simp only [Pool.pathValues, List.getLast?_concat, List.dropLast_concat, hfilter, hall,
    Pool.resolve_source h evaluator _ ""]
  exact Results.keep_elements _ _

end

namespace Plan

variable (source : String) (root : PathRoot) (steps : List (PathStep Part)) (condition : Part)

/-- The plan of a path that ends in all elements. -/
theorem ofPath_all :
    ofPath source root (steps ++ [.all]) = do
      let moves ← steps.mapM (move source)
      return .sequence fun ctx =>
        Results.ofExcept ((travel root (Pool.firstField steps) moves ctx).map Value.elements) := by
  simp only [ofPath, List.getLast?_concat, List.dropLast_concat]
  cases steps with
  | nil => rfl
  | cons step rest => cases step <;> rfl

/-- The plan of a path that ends in a condition. -/
theorem ofPath_filter :
    ofPath source root (steps ++ [.filter condition]) = do
      let moves ← steps.mapM (move source)
      let test ← scalarPart condition
      return .sequence fun ctx =>
        (Results.ofExcept ((travel root (Pool.firstField steps) moves ctx).map Value.elements)).keep
          fun element => test (ctx.withCurrent element) := by
  have hkeep := fun moves (test : Context → Except EvalError Value) => funext fun ctx =>
    Results.keep_elements (fun element => test (ctx.withCurrent element))
      (travel root (Pool.firstField steps) moves ctx)
  simp only [ofPath, List.getLast?_concat, List.dropLast_concat, ← hkeep]
  cases steps with
  | nil => rfl
  | cons step rest => cases step <;> rfl

end Plan

theorem Node.plan_path (fields : Fields) (root : PathRoot) (steps : List (PathStep Node)) :
    (Node.path fields root steps).plan =
      Plan.ofPath (Node.path fields root steps).source root
        (steps.map (PathStep.map fun n => (n, n.plan))) :=
  fold_mk _ _ _

/-- On either backend a condition behind a path is a filter of all elements there. -/
theorem Backend.run_path_filter (backend : Backend) (fields : Fields) (root : PathRoot)
    {steps : List (PathStep Node)} (h : steps.any PathStep.isEnumerable = false)
    (condition : Node) :
    backend.run (.path fields root (steps ++ [.filter condition])) =
      backend.run (.filter (.path fields root (steps ++ [.all])) condition) := by
  rw [run_filter]
  cases backend with
  | instructions =>
      rw [run_instructions, run_instructions]
      exact congrArg Except.ok (funext (Node.values_path_filter fields root condition h))
  | functions =>
      have hsteps : (steps.map (PathStep.map fun n => (n, n.plan))).any PathStep.isEnumerable =
          false := by
        rwa [List.any_map, Function.comp_def, funext (PathStep.isEnumerable_map _)]
      rw [run_functions, run_functions, Node.plan_path, Node.plan_path, List.map_append,
        List.map_append]
      simp only [List.map_cons, List.map_nil, PathStep.map]
      rw [runOne, Plan.ofPath_filter, Plan.ofPath_all, Plan.moves_source hsteps _
        (Node.path fields root (steps ++ [PathStep.all])).source]
      cases (steps.map (PathStep.map fun n => (n, n.plan))).mapM (Plan.move _) with
      | error error => rfl
      | ok moves => cases Plan.scalarPart (condition, condition.plan) <;> rfl

/-! ### All ways to filter -/

/-- Two filters of a sequence, one behind the other, are one filter with both predicates. -/
theorem Backend.run_filter_filter (backend : Backend) (source p q : Node) :
    backend.run (.filter (.filter source p) q) =
      backend.run (.filter source (.operation (.logic .and) p q)) := by
  simp only [run_filter, runOne_and, bind_assoc, pure_bind]
  refine bind_congr fun elements => bind_congr fun first => bind_congr fun second => ?_
  exact congrArg Except.ok (funext fun ctx => Results.keep_keep _ _ _)

/-- All ways to filter what a path of one value leads to by two predicates are one filter, with the
predicates in brackets, in `FILTER` or joined by `AND`: they yield the same values and the same
errors in the same places in every context, or a backend refuses them alike. So do the two ways to
filter any sequence. -/
theorem filter_forms (backend : Backend) {fields : Fields} {root : PathRoot}
    {steps : List (PathStep Node)} (h : (Node.path fields root steps).isScalar = true)
    (p q : Node) :
    let both := Node.operation (.logic .and) p q
    let all := Node.path fields root (steps ++ [.all])
    let kept := backend.run (.path fields root (steps ++ [.filter both]))
    backend.run (.filter (.path fields root (steps ++ [.filter p])) q) = kept ∧
      backend.run (.filter (.filter all p) q) = kept ∧
      backend.run (.filter all both) = kept ∧
      ∀ source : Node,
        backend.run (.filter (.filter source p) q) = backend.run (.filter source both) := by
  intro both all kept
  have hsteps : steps.any PathStep.isEnumerable = false := by simpa [Node.path] using h
  have hboth : backend.run (.filter all both) = kept :=
    (backend.run_path_filter fields root hsteps both).symm
  have hfilters := fun source => backend.run_filter_filter source p q
  refine ⟨?_, (hfilters all).trans hboth, hboth, hfilters⟩
  rw [← hboth, ← hfilters all, Backend.run_filter, backend.run_path_filter fields root hsteps p,
    ← Backend.run_filter]

/-- Elements of which the first predicate drops one and fails on one, and the second does so with
those that are left: `$.a[12/@>1 AND 12/(@-4)<-6]`. -/
theorem filter_forms_mixed :
    let element := Node.path .empty .current []
    let quotient := Node.operation (.binary (.arithmetic .divide)) (.int32 12)
    let distance := Node.operation (.binary (.arithmetic .subtract)) element (.int32 4)
    let p := Node.operation (.binary (.comparison .greater)) (quotient element) (.int32 1)
    let q := Node.operation (.binary (.comparison .less)) (quotient distance) (.int32 (-6))
    let both := Node.operation (.logic .and) p q
    let path (last : PathStep Node) := Node.path (.single "a") .document ([.member "a"] ++ [last])
    let ctx := Context.ofDocument
      (.document [("a", .array (([0, 2, 3, 4, 9] : List Int32).map Value.int32))]) [] .binary
      ⟨.ofDate .epoch, fun _ _ => 0⟩
    (Node.path (.single "a") .document [.member "a"]).isScalar = true ∧
    ∀ backend : Backend, ∀ form ∈ [Node.filter (path (.filter p)) q,
        .filter (.filter (path .all) p) q, .filter (path .all) both, path (.filter both)],
      (backend.run form).map (fun values => values ctx) =
        .ok [.error .zeroDivision, .ok (.int32 3), .error .zeroDivision] := by
  intro element quotient distance p q both path ctx
  have h : (Node.path (.single "a") .document [.member "a"]).isScalar = true := rfl
  refine ⟨h, fun backend form hform => ?_⟩
  obtain ⟨hpath, hfilters, hboth, -⟩ := filter_forms backend h p q
  have hkept : (backend.run (path (.filter both))).map (fun values => values ctx) =
      .ok [.error .zeroDivision, .ok (.int32 3), .error .zeroDivision] := by
    cases backend <;> rfl
  have hrun : backend.run form = backend.run (path (.filter both)) := by
    simp only [List.mem_cons, List.not_mem_nil, or_false] at hform
    obtain rfl | rfl | rfl | rfl := hform
    · exact hpath
    · exact hfilters
    · exact hboth
    · rfl
  rw [hrun, hkept]

end DocQuery
