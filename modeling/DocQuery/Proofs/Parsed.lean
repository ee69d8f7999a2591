import DocQuery.Expression
import DocQuery.Proofs.Safety
import DocQuery.Proofs.Typing
/-!
# DocQuery.Proofs.Parsed

What holds of every expression that a text is parsed into. Both backends make it into
something that evaluates to its meaning, except that functions of the context refuse
sorts; and what cannot go wrong in a disciplined expression cannot go wrong in it.
-/

namespace DocQuery

namespace Node

/-- The node is a sort. -/
def IsSort (n : Node) : Prop := ∃ source key order, n.form = .sort source key order

theorem usesSort_iff {n : Node} : n.usesSort = true ↔ ∃ m, n.Within m ∧ m.IsSort := by
  induction n using Node.induction with
  | step n ih =>
      rw [usesSort_eq, Bool.or_eq_true, List.any_eq_true]
      constructor
      · rintro (hsort | ⟨part, hpart, hsort⟩)
        · split at hsort
          · rename_i source key order hform
            exact ⟨n, .self, source, key, order, hform⟩
          · cases hsort
        · obtain ⟨m, hm, hsort⟩ := (ih part hpart).mp hsort
          exact ⟨m, (Within.self.part hpart).trans hm, hsort⟩
      · rintro ⟨m, hm, hsort⟩
        rcases within_iff.mp hm with rfl | ⟨part, hpart, hm⟩
        · obtain ⟨source, key, order, hform⟩ := hsort
          exact .inl (by rw [hform])
        · exact .inr ⟨part, hpart, (ih part hpart).mpr ⟨m, hm, hsort⟩⟩

end Node

/-! ### Backends -/

namespace Expression

/-- An expression for a node, as a backend makes it. -/
def ofNode (backend : Backend) (n : Node) (program : Program) (parameters : Document) :
    Expression :=
  { node := n, backend, program, parameters }

theorem build_of_parse {code : String} {options : CompileOptions} {n : Node}
    (h : parse code options.scope options.mode = .ok n) (backend : Backend) :
    build backend code options =
      match backend.build n with
      | .ok program => .ok (ofNode backend n program options.parameters)
      | .error error => .error ⟨.eval error, n.source⟩ := by
  unfold build
  rw [h]
  rfl

/-- What is compiled is an expression for the node that its text is parsed into. -/
theorem exists_of_build {backend : Backend} {code : String} {options : CompileOptions}
    {e : Expression} (h : build backend code options = .ok e) :
    ∃ n program, parse code options.scope options.mode = .ok n ∧ backend.build n = .ok program ∧
      e = ofNode backend n program options.parameters := by
  cases hparse : parse code options.scope options.mode with
  | error error =>
      unfold build at h
      rw [hparse] at h
      cases h
  | ok n =>
      rw [build_of_parse hparse] at h
      cases hprogram : backend.build n with
      | error error =>
          rw [hprogram] at h
          cases h
      | ok program =>
          rw [hprogram] at h
          cases h
          exact ⟨n, program, rfl, hprogram, rfl⟩

variable {n : Node} (parameters : Document) (ctx : Context)

/-- The instructions of an expression yield its values. -/
theorem execute_pool :
    (ofNode .instructions n (.pool n.flatten) parameters).execute ctx = n.values ctx := by
  cases hscalar : n.isScalar with
  | true =>
      rw [Node.values_of_isScalar hscalar, ← Node.flatten_scalar]
      simp [execute, ofNode, isScalar, hscalar]
  | false =>
      rw [← Node.flatten_values]
      simp [execute, ofNode, isScalar, hscalar]

/-- The plan of the meaning of an expression yields its values. -/
theorem execute_plan :
    (ofNode .functions n (.plan n.asPlan) parameters).execute ctx = n.values ctx :=
  congrFun n.asPlan_values ctx

/-- The instructions and the plan of an expression yield the same one value. -/
theorem executeScalar_eq :
    (ofNode .functions n (.plan n.asPlan) parameters).executeScalar ctx =
      (ofNode .instructions n (.pool n.flatten) parameters).executeScalar ctx := by
  unfold executeScalar
  simp only [ofNode, isScalar, Node.flatten_scalar, Node.asPlan_value]
  rfl

/-- What a backend makes of a disciplined expression yields its values. -/
theorem execute_of_build (hn : n.Disciplined) {backend : Backend} {program : Program}
    (h : backend.build n = .ok program) :
    (ofNode backend n program parameters).execute ctx = n.values ctx := by
  cases backend with
  | instructions =>
      cases h
      exact execute_pool parameters ctx
  | functions =>
      rw [Backend.build, Node.plan_eq hn, Node.planned, Node.unlessSort] at h
      split at h
      · cases h
      · cases h
        exact execute_plan parameters ctx

/-- What a backend makes of a disciplined expression yields its one value. -/
theorem executeScalar_of_build (hn : n.Disciplined) {backend : Backend} {program : Program}
    (h : backend.build n = .ok program) :
    (ofNode backend n program parameters).executeScalar ctx =
      (n.scalar ctx).mapError fun error => ⟨.eval error, n.source⟩ := by
  -- The instructions evaluate the expression; a plan does what they do, if there is one.
  have hpool : (ofNode .instructions n (.pool n.flatten) parameters).executeScalar ctx =
      (n.scalar ctx).mapError fun error => ⟨.eval error, n.source⟩ := by
    unfold executeScalar
    cases hscalar : n.isScalar with
    | true =>
        simp only [ofNode, isScalar, hscalar, if_true, Node.flatten_scalar]
        rfl
    | false =>
        simp only [ofNode, isScalar, hscalar, Node.scalar_of_not_isScalar hscalar]
        rfl
  cases backend with
  | instructions =>
      cases h
      exact hpool
  | functions =>
      rw [Backend.build, Node.plan_eq hn, Node.planned, Node.unlessSort] at h
      split at h
      · cases h
      · cases h
        exact (executeScalar_eq parameters ctx).trans hpool

end Expression

/-- Where a text is parsed, the two backends agree: `instructions` and `functions` both make an
expression of it, which yields the same values and the same errors in the same places, unless there
is a `SORT` in it. Then the functions of the context refuse it, and for no other reason. -/
theorem backends_agree {code : String} {options : CompileOptions} {n : Node}
    (h : parse code options.scope options.mode = .ok n) :
    ∃ instructions, Expression.build .instructions code options = .ok instructions ∧
      ((∃ m, n.Within m ∧ m.IsSort) →
        Expression.build .functions code options = .error ⟨.eval (.unsupported "SORT"), n.source⟩) ∧
      ((¬ ∃ m, n.Within m ∧ m.IsSort) →
        ∃ functions, Expression.build .functions code options = .ok functions ∧
          ∀ ctx, functions.execute ctx = instructions.execute ctx ∧
            functions.executeScalar ctx = instructions.executeScalar ctx) := by
  -- A plan is there for every disciplined expression without a sort.
  have hplan := Node.plan_eq (disciplined_of_parse h)
  rw [← Node.usesSort_iff]
  refine ⟨_, Expression.build_of_parse h .instructions, ?_, ?_⟩
  · intro hsort
    rw [Expression.build_of_parse h, Backend.build, hplan, Node.planned, hsort]
    rfl
  · intro hsort
    refine ⟨.ofNode .functions n (.plan n.asPlan) options.parameters, ?_, fun ctx => ⟨?_, ?_⟩⟩
    · rw [Expression.build_of_parse h, Backend.build, hplan, Node.planned,
        Bool.eq_false_iff.mpr hsort]
      rfl
    · exact (Expression.execute_plan _ ctx).trans (Expression.execute_pool _ ctx).symm
    · exact Expression.executeScalar_eq _ ctx

/-- `MAP` over the elements of an array has a plan like its instructions. -/
theorem backends_agree_map : ∃ n, parse "MAP($.a=>@.b+1)" .root .full = .ok n ∧
    ∃ instructions functions,
      Expression.build .instructions "MAP($.a=>@.b+1)" {} = .ok instructions ∧
      Expression.build .functions "MAP($.a=>@.b+1)" {} = .ok functions ∧
      ∀ ctx, functions.execute ctx = instructions.execute ctx ∧
        functions.executeScalar ctx = instructions.executeScalar ctx := by
  have hsome : ((parse "MAP($.a=>@.b+1)" .root .full).map Node.usesSort).toOption = some false := by
    decide +kernel
  cases h : parse "MAP($.a=>@.b+1)" .root .full with
  | error e =>
      rw [h] at hsome
      cases hsome
  | ok n =>
      rw [h] at hsome
      have hsort : ¬ ∃ m, n.Within m ∧ m.IsSort := by
        rw [← Node.usesSort_iff, Option.some.inj hsome]
        nofun
      obtain ⟨instructions, hi, -, hagree⟩ := @backends_agree _ {} n h
      obtain ⟨functions, hf, heq⟩ := hagree hsort
      exact ⟨n, rfl, instructions, functions, hi, hf, heq⟩

/-! ### Soundness -/

/-- An expression that a text is parsed into keeps the discipline of cardinalities, and so
on either backend it raises no error but those allowed in it: a sequence in the place of
one value only in a predicate or a sort key, and a path without a beginning only where
something is not bound. Calls are given as many arguments as the function takes, with
every sequence among them as one array, by instructions as by plans. -/
theorem sound_of_parse {code : String} {scope : Scope} {mode : ParseMode} {n : Node}
    (h : parse code scope mode = .ok n) :
    n.Disciplined ∧
      (∀ backend program, backend.build n = .ok program → ∀ parameters ctx e,
        .error e ∈ (Expression.ofNode backend n program parameters).execute ctx →
          n.Allows ctx.IsBound e) ∧
      (∀ instruction ∈ n.flatten, ∀ function args,
        instruction.op = .layer (.call function args) → ∀ ctx values,
          Pool.arguments (Pool.evaluator n.flatten) ctx args = .ok values →
            function.Packed values) ∧
      (∀ m, n.Within m → ∀ function args, m.form = .call function args → ∀ runs,
        args.mapM (fun arg => arg.plan.map Plan.argument) = .ok runs → ∀ ctx values,
          Plan.runAll runs ctx = .ok values → function.Packed values) := by
  have hdisciplined := disciplined_of_parse h
  refine ⟨hdisciplined, ?_, ?_, ?_⟩
  · intro backend program hbuild parameters ctx e he
    refine hdisciplined.allows id ?_
    -- Either program evaluates the expression itself, whose errors are known.
    cases backend with
    | instructions =>
        cases hbuild
        rwa [Expression.execute_pool] at he
    | functions =>
        rw [Backend.build, Node.plan_eq hdisciplined, Node.planned, Node.unlessSort] at hbuild
        split at hbuild
        · cases hbuild
        · cases hbuild
          rwa [Expression.execute_plan] at he
  · intro instruction hmem function args hop ctx values hv
    exact hdisciplined.packed_flatten hmem hop hv
  · intro m hm function args hform runs hruns ctx values hv
    exact hdisciplined.packed_plan hm hform hruns hv

/-- A predicate in brackets that yields a sequence is read, and nothing else in it can be one. -/
theorem sound_of_parse_filter : ∃ n, parse "COUNT($.a[@.b[*]])" .root .full = .ok n ∧
    n.Disciplined ∧ ∀ parameters ctx e,
      .error e ∈ (Expression.ofNode .instructions n (.pool n.flatten) parameters).execute ctx →
        n.Allows ctx.IsBound e := by
  have hsome : (parse "COUNT($.a[@.b[*]])" .root .full).toOption.isSome = true := by
    decide +kernel
  cases h : parse "COUNT($.a[@.b[*]])" .root .full with
  | error e =>
      rw [h] at hsome
      cases hsome
  | ok n =>
      obtain ⟨hdisciplined, hallows, -, -⟩ := sound_of_parse h
      exact ⟨n, rfl, hdisciplined, hallows .instructions _ rfl⟩

end DocQuery
