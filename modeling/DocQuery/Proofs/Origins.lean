import DocQuery.Proofs.Discipline
import DocQuery.Proofs.Meaning
/-!
# DocQuery.Proofs.Origins

Where an error about values comes from. Whatever is done with the values of the parts of
an expression, errors are passed on and none is made up: each has been raised by an
operator or a function within the expression that was applied to values of its own
parts, or by a sort of keys that are in no order (`Node.exists_raises`).

That all errors of an evaluation are of one kind is agreement of the evaluation with
itself (`Only`), and so the congruences of agreement serve here as well.
-/

namespace DocQuery

open Pool (Evaluator firstField)

/-! ### Errors of one kind -/

/-- If the evaluation fails, then with an error of this kind. -/
abbrev Only (P : EvalError → Prop) {α : Type} (x : Except EvalError α) : Prop :=
  Agree (fun e _ => P e) x x

/-- All errors in the sequence are of this kind. -/
abbrev OnlyAll (P : EvalError → Prop) (rs : Results) : Prop := AgreeAll (fun e _ => P e) rs rs

section

variable {P : EvalError → Prop} {α β : Type}

theorem only_of {x : Except EvalError α} (h : ∀ e, x = .error e → P e) : Only P x :=
  Agree.refl_of (K := fun e _ => P e) h

/-- What comes next need only be looked at for the value that has been found. -/
theorem only_bind {x : Except EvalError α} {f : α → Except EvalError β} (hx : Only P x)
    (hf : ∀ a, x = .ok a → Only P (f a)) : Only P (x >>= f) := by
  cases x with
  | ok a => exact hf a rfl
  | error e =>
      cases hx with
      | error h => exact .error h

theorem onlyAll_mem {rs : Results} (h : OnlyAll P rs) {e : EvalError} (he : .error e ∈ rs) :
    P e := by
  have hagree := List.forall₂_same.mp h _ he
  cases hagree with
  | error h => exact h

end

/-! ### Layers -/

/-- An operator or a function of the layer, applied to values of the parts, fails with this
error, or a sort does so on the keys that it is given. -/
inductive Form.Raises {ν : Type} (parts : Evaluator ν) (e : EvalError) : Form ν → Prop where
  | call {function : Builtin} {args : List ν} (ctx : Context) {values : List Value}
      (hv : Pool.arguments parts ctx args = .ok values)
      (h : function.apply ctx.collation values = .error e) : Raises parts e (.call function args)
  | binary {op : BinaryOp} {left right : ν} (ctx : Context) {a b : Value}
      (ha : parts.scalar left ctx = .ok a) (hb : parts.scalar right ctx = .ok b)
      (h : Pool.operate ctx.collation op a b = .error e) : Raises parts e (.binary op left right)
  | quantified {quantifier : Quantifier} {op : ComparisonOp} {left right : ν} (ctx : Context)
      {a b : Value} (hb : parts.scalar right ctx = .ok b)
      (h : Comparison.apply ctx.collation op a b = .error e) :
      Raises parts e (.quantified quantifier op left right)
  | sort {sequence key : ν} {order : Option ν} (ctx : Context) {descending : Bool}
      {pairs : List (Value × Value)}
      (h : Results.sortPairs ctx.collation descending pairs = .error e) :
      Raises parts e (.sort sequence key order)

section

variable {P : EvalError → Prop} {ν : Type} {parts : Evaluator ν}

/-- The errors of a part are of the kind. -/
def Pool.Evaluator.Only (parts : Evaluator ν) (P : EvalError → Prop) (part : ν) : Prop :=
  ∀ ctx, DocQuery.Only P (parts.scalar part ctx) ∧ OnlyAll P (parts.values part ctx)

variable (hP : ∀ e, e.aboutValues = false → P e) {ctx : Context} {source : String}

section

include hP

/-- Behind a value only a computed place can fail: with an error of the part, or since the place is
no number, which is no error about values. -/
theorem follow_only {steps : List (PathStep ν)}
    (h : ∀ part ∈ steps.flatMap PathStep.children, parts.Only P part) (value : Value) :
    Only P (Pool.follow parts source ctx value steps) := by
  induction steps generalizing value with
  | nil => exact .ok value
  | cons step rest ih =>
      have hrest := ih fun part hpart => h part (by simp [hpart])
      cases step with
      | member name => exact hrest _
      | index place => exact hrest _
      | indexOf part =>
          have hpart := h part (by simp [PathStep.children])
          refine (hpart ctx).1.bind fun index => Agree.bind ?_ hrest
          unfold Value.elementAt
          split
          · exact .ok _
          · exact .error (hP _ rfl)
      -- Steps to many values are never followed from one.
      | all | filter _ | items => exact .error (hP _ rfl)

/-- The steps begin at the value that the root names, if there is one. -/
theorem resolve_only {root : PathRoot} {steps : List (PathStep ν)} {field : String}
    (h : ∀ part ∈ steps.flatMap PathStep.children, parts.Only P part) :
    Only P (Pool.resolve parts source ctx root steps field) := by
  refine Agree.bind ?_ (follow_only hP h)
  unfold Pool.origin
  cases root <;> dsimp only <;> split <;> first | exact .ok _ | exact .error (hP _ rfl)

/-- A condition at the end of a path is evaluated for each element, what stands before it once. -/
theorem pathValues_only {root : PathRoot} {steps : List (PathStep ν)}
    (h : ∀ part ∈ steps.flatMap PathStep.children, parts.Only P part) :
    OnlyAll P (Pool.pathValues parts source ctx root steps) := by
  have hbefore (field : String) :
      Only P (Pool.resolve parts source ctx root steps.dropLast field) := by
    refine resolve_only hP fun part hpart => h part ?_
    obtain ⟨step, hstep, hpart⟩ := List.mem_flatMap.mp hpart
    exact List.mem_flatMap.mpr ⟨step, List.dropLast_subset _ hstep, hpart⟩
  unfold Pool.pathValues
  dsimp only
  split
  · rename_i condition hlast
    have hcondition := h condition (List.mem_flatMap.mpr
      ⟨_, List.mem_of_getLast? hlast, List.mem_singleton_self _⟩)
    have hbefore := hbefore (firstField steps)
    generalize Pool.resolve parts source ctx root steps.dropLast (firstField steps) = x at hbefore
    cases hbefore with
    | error he => exact AgreeAll.failed he
    | ok value => exact (AgreeAll.ofValues _).keep fun element => (hcondition _).1
  · exact AgreeAll.ofExcept ((hbefore _).map _)
  · exact AgreeAll.ofExcept ((hbefore _).map _)
  · exact AgreeAll.ofOne (resolve_only hP h)

end

/-- An argument is evaluated as one value, or collected as many. -/
theorem arguments_only {args : List ν} (h : ∀ arg ∈ args, parts.Only P arg) :
    Only P (Pool.arguments parts ctx args) := by
  induction args with
  | nil => exact .ok []
  | cons arg rest ih =>
      obtain ⟨harg, hrest⟩ := List.forall_mem_cons.mp h
      have hcons (value : Value) := (ih hrest).bind fun rest => Agree.ok (value :: rest)
      cases hone : parts.isScalar arg with
      | true =>
          simp only [Pool.arguments, hone, if_true]
          exact (harg ctx).1.bind hcons
      | false =>
          simp only [Pool.arguments, hone, Bool.false_eq_true, if_false]
          exact ((harg ctx).2.collect.map Value.array).bind hcons

/-- A function is applied only to arguments that have been evaluated. -/
theorem invoke_only {function : Builtin} {args : List ν} (h : ∀ arg ∈ args, parts.Only P arg)
    (hraises : ∀ e, (Form.call function args).Raises parts e → P e) :
    Only P (Pool.invoke parts ctx function args) :=
  only_bind (arguments_only h) fun _ hv => only_of fun e he => hraises e (.call ctx hv he)

theorem entryValues_only {entries : List (String × ν)}
    (h : ∀ part ∈ entries.map Prod.snd, parts.Only P part) :
    Only P (Pool.entryValues parts ctx entries) := by
  induction entries with
  | nil => exact .ok []
  | cons entry rest ih =>
      obtain ⟨hpart, hrest⟩ := List.forall_mem_cons.mp h
      exact (hpart ctx).1.bind fun value => (ih hrest).bind fun rest => .ok _

theorem itemValues_only {items : List ν} (h : ∀ item ∈ items, parts.Only P item) :
    Only P (Pool.itemValues parts ctx items) := by
  induction items with
  | nil => exact .ok []
  | cons item rest ih =>
      obtain ⟨hitem, hrest⟩ := List.forall_mem_cons.mp h
      exact (hitem ctx).1.bind fun value => (ih hrest).bind fun rest => .ok _

section

variable {form : Form ν} (hparts : ∀ part ∈ form.children, parts.Only P part)
  (hraises : ∀ e, form.Raises parts e → P e)

include hP hparts hraises

/-- An operator is applied only to sides that have been evaluated, so that an error of its own is
raised on values of its parts; all other layers pass errors on. -/
theorem formScalar_only : Only P (Pool.stepScalar parts source (.layer form) ctx) := by
  cases form with
  | constant value => exact .ok value
  | parameter name => exact .ok _
  | generate generator site => exact .ok _
  | documents | map | filter | sort => exact .error (hP _ rfl)
  | document entries => exact (entryValues_only hparts).map _
  | array items => exact (itemValues_only hparts).map _
  | path root steps => exact resolve_only hP hparts
  | call function args => exact (invoke_only hparts hraises).map _
  | binary op left right =>
      refine only_bind (hparts left (by simp [Form.children]) ctx).1 fun a ha => ?_
      refine only_bind (hparts right (by simp [Form.children]) ctx).1 fun b hb => ?_
      exact only_of fun e he => hraises e (.binary ctx ha hb he)
  | quantified quantifier op left right =>
      refine only_bind (hparts right (by simp [Form.children]) ctx).1 fun b hb => ?_
      refine Agree.bind ?_ fun holds => .ok _
      refine (hparts left (by simp [Form.children]) ctx).2.holds quantifier fun a => ?_
      exact only_of fun e he => hraises e (.quantified ctx hb he)
  | logic op left right =>
      refine (hparts left (by simp [Form.children]) ctx).1.bind fun a => ?_
      cases op <;> cases a.isTrue <;>
        first
          | exact .ok _
          | exact (hparts right (by simp [Form.children]) ctx).1.bind fun b => .ok _
  | conditional test ifTrue ifFalse =>
      refine (hparts test (by simp [Form.children]) ctx).1.bind fun result => ?_
      split
      · exact (hparts ifTrue (by simp [Form.children]) ctx).1
      · exact (hparts ifFalse (by simp [Form.children]) ctx).1

/-- The same of layers that yield many values; of these a sort alone raises errors of its own. -/
theorem formValues_only : OnlyAll P (Pool.stepValues parts source (.layer form) ctx) := by
  cases form with
  | constant | parameter | document | array | generate | binary | quantified | logic =>
      exact AgreeAll.failed (hP _ rfl)
  | documents => exact AgreeAll.ofValues _
  | path root steps => exact pathValues_only hP hparts
  | map sequence selector =>
      have hsequence := (hparts sequence (by simp [Form.children]) ctx).2
      have hselector := hparts selector (by simp [Form.children])
      simp only [Pool.stepValues]
      split
      · exact hsequence.mapEach fun element => (hselector _).1
      · exact hsequence.flatMapEach fun element => (hselector _).2
  | filter sequence predicate =>
      exact (hparts sequence (by simp [Form.children]) ctx).2.keep fun element =>
        (hparts predicate (by simp [Form.children]) _).1
  | sort sequence key order =>
      have hsorted (descending : Bool) : Only P ((parts.values sequence ctx).sortBy ctx.collation
          descending fun element => parts.scalar key (ctx.withCurrent element)) :=
        (hparts sequence (by simp [Form.children]) ctx).2.sortBy _ descending
          (fun element => (hparts key (by simp [Form.children]) _).1)
          fun pairs => only_of fun e he => hraises e (.sort ctx he)
      refine AgreeAll.ofExcept ?_
      cases order with
      | none => exact hsorted false
      | some order =>
          exact ((hparts order (by simp [Form.children]) ctx).1.map _).bind hsorted
  | call function args => exact AgreeAll.ofExcept ((invoke_only hparts hraises).map _)
  | conditional test ifTrue ifFalse =>
      have htest := (hparts test (by simp [Form.children]) ctx).1
      simp only [Pool.stepValues]
      generalize parts.scalar test ctx = x at htest
      cases htest with
      | error he => exact AgreeAll.failed he
      | ok result =>
          dsimp only
          split
          · exact (hparts ifTrue (by simp [Form.children]) ctx).2
          · exact (hparts ifFalse (by simp [Form.children]) ctx).2

end

end

/-! ### Expressions -/

section

variable {P : EvalError → Prop} {n : Node}

/-- An action of a node has the errors of its parts and those that its layer raises. -/
theorem Node.action_only (hP : ∀ e, e.aboutValues = false → P e)
    (hparts : ∀ part ∈ n.children, evaluator.Only P part)
    (hraises : ∀ e, n.form.Raises evaluator e → P e) (ctx : Context) (source : String) :
    Only P (Pool.stepScalar evaluator source n.action ctx) ∧
      OnlyAll P (Pool.stepValues evaluator source n.action ctx) := by
  obtain ⟨info, form⟩ := n
  have hlayer : Only P (Pool.stepScalar evaluator source (.layer form) ctx) ∧
      OnlyAll P (Pool.stepValues evaluator source (.layer form) ctx) :=
    ⟨formScalar_only hP hparts hraises, formValues_only hP hparts hraises⟩
  -- An action differs from its layer only where a pattern has been compiled; matching a text
  -- against it raises nothing.
  change Only P (Pool.stepScalar evaluator source (.ofForm Pool.patternOf? form) ctx) ∧
    OnlyAll P (Pool.stepValues evaluator source (.ofForm Pool.patternOf? form) ctx)
  cases form with
  | binary op left right =>
      rcases op with op | op
      · exact hlayer
      · cases op with
        | like =>
            simp only [Action.ofForm]
            cases Pool.patternOf? right with
            | none => exact hlayer
            | some pattern =>
                refine ⟨?_, AgreeAll.failed (hP _ rfl)⟩
                exact (hparts left (by simp [children, Node.form, Form.children]) ctx).1.bind
                  fun value => .ok _
        | _ => exact hlayer
  | quantified quantifier op left right =>
      cases op with
      | like =>
          simp only [Action.ofForm]
          cases Pool.patternOf? right with
          | none => exact hlayer
          | some pattern =>
              refine ⟨Agree.map _ ?_, AgreeAll.failed (hP _ rfl)⟩
              exact (hparts left (by simp [children, Node.form, Form.children]) ctx).2.holds
                quantifier fun value => .ok _
      | _ => exact hlayer
  | _ => exact hlayer

/-- The errors of an expression are those that are raised within it. -/
theorem Node.only_of_raises (hP : ∀ e, e.aboutValues = false → P e)
    (hraises : ∀ m, n.Within m → ∀ e, m.form.Raises evaluator e → P e) :
    evaluator.Only P n := by
  induction n using Node.induction with
  | step n ih =>
      have hwithin {part : Node} (hpart : part ∈ n.children) : n.Within part :=
        Within.self.part hpart
      -- What is raised within a part is raised within the whole.
      have hstep := Node.action_only hP
        (fun part hpart => ih part hpart fun m hm => hraises m ((hwithin hpart).trans hm))
        (hraises n .self)
      intro ctx
      change Only P (n.scalar ctx) ∧ OnlyAll P (n.values ctx)
      rw [scalar_eq, values_eq, Pool.actionScalar, Pool.actionValues]
      cases n.isScalar with
      | true => exact ⟨(hstep ctx _).1, .ofOne (hstep ctx _).1⟩
      | false => exact ⟨.error (hP _ rfl), (hstep ctx _).2⟩

/-- An error about values has been raised by an operator, a function or a sort within the
expression, applied to values of its own parts. -/
theorem Node.exists_raises {ctx : Context} {e : EvalError} (he : .error e ∈ n.values ctx)
    (habout : e.aboutValues = true) : ∃ m, n.Within m ∧ m.form.Raises evaluator e := by
  -- The kind of error that is asked about: one that has been raised, if it is about values.
  have honly := Node.only_of_raises (n := n)
    (P := fun e => e.aboutValues = true → ∃ m, n.Within m ∧ m.form.Raises evaluator e)
    (fun e hno hyes => by simp [hno] at hyes) fun m hm e hraises _ => ⟨m, hm, hraises⟩
  exact onlyAll_mem (honly ctx).2 he habout

end

end DocQuery
