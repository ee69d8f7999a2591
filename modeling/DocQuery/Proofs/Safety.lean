import DocQuery.Proofs.Functions
import DocQuery.Proofs.Instructions
/-!
# DocQuery.Proofs.Safety

What cannot go wrong in an expression that keeps the discipline of cardinalities. Only
what is evaluated for each element of a sequence may be asked for one value and yield
many: a predicate or a sort key, and then the error names its text. A path misses its
beginning only where nothing is bound. And functions are called with as many arguments
as they take, every sequence among them as one array.

The errors are followed by `Node.Disciplined.safePart`, an induction on the expression in the
`Setting` that compares it with itself: an error that is not allowed does not agree even
with itself.
-/

namespace DocQuery

open Pool (Evaluator origin firstField)

/-! ### Errors that may occur

The errors are told by what they name. A sequence in the place of one value names the text of that
part, and the part has to be one that is evaluated for each element. -/

namespace Form

/-- The parts that are evaluated for each element of a sequence and have to yield one
value there. -/
def tested {ν : Type} : Form ν → List ν
  | .path _ steps => steps.flatMap fun
    | .filter condition => [condition]
    | _ => []
  | .filter _ predicate => [predicate]
  | .sort _ key _ => [key]
  | _ => []

end Form

/-- The text is that of a predicate or a sort key within the expression that yields a
sequence. -/
def Node.IsLooseText (n : Node) (text : String) : Prop :=
  ∃ m, n.Within m ∧ ∃ part ∈ m.form.tested, part.isScalar = false ∧ part.source = text

/-- Root and element at hand are both there. -/
def Context.IsBound (ctx : Context) : Prop := ctx.root.isSome ∧ ctx.current.isSome

/-- The error may occur in the evaluation of an expression, be it known that root and
element are bound. -/
def Node.Allows (n : Node) (bound : Prop) : EvalError → Prop
  | .notScalar text => n.IsLooseText text
  | .noRootDocument _ => ¬ bound
  | _ => True

theorem Node.allows_about (n : Node) (bound : Prop) {e : EvalError} (h : e.aboutValues = true) :
    n.Allows bound e := by
  cases e <;> trivial

/-- An expression beside itself, with the errors that may occur in it. -/
def Node.safety (n : Node) (bound : Prop) : Setting Node Node where
  left := evaluator
  right := evaluator
  errors e e' := e = e' ∧ n.Allows bound e
  contexts c c' := c = c' ∧ (bound → c.IsBound)
  errors_about e h := ⟨rfl, n.allows_about bound h⟩
  contexts_collation h := by rw [h.1]
  contexts_withCurrent v h := ⟨by rw [h.1], fun hb => ⟨(h.2 hb).1, rfl⟩⟩

namespace Form.Disciplined

variable {info : NodeInfo} {form : Form Node}

/-- A layer that keeps the discipline yields as many values as is known of it. -/
theorem yields (h : form.Disciplined info) : form.yields info.isScalar = true := by
  cases form with
  | constant | parameter | generate =>
      rw [show info.isScalar = true from h]
      rfl
  | documents =>
      rw [show info.isScalar = false from h]
      rfl
  | path root steps =>
      obtain ⟨hinfo, hlast, -⟩ := h
      rw [hinfo]
      cases hany : steps.any PathStep.isEnumerable with
      | true => simp [Form.yields, Form.yieldsMany, hlast]
      | false => simp [Form.yields, Form.yieldsOne, hany]
  | call | conditional =>
      cases hi : info.isScalar <;> rfl
  | document | array | map | filter | sort | binary | quantified | logic =>
      rw [h.1]
      rfl

end Form.Disciplined

namespace Action

/-- A comparison with a pattern demands no more of its left side than the layer does. -/
theorem lifts_ofForm_self {ν : Type} {R : Places ν ν} {p : ν → Option Text.Glob} {form : Form ν}
    (h : form.Lifts R form) : (ofForm p form).Lifts R (ofForm p form) := by
  have hlayer := Lifts.layer h
  cases h with
  | @binary op _ right _ _ hl hr =>
      rcases op with op | op
      · exact hlayer
      · cases op with
        | like =>
            simp only [ofForm]
            cases p right with
            | none => exact hlayer
            | some pattern => exact .like pattern hl
        | _ => exact hlayer
  | @quantified quantifier op _ right _ _ hl hr =>
      cases op with
      | like =>
          simp only [ofForm]
          cases p right with
          | none => exact hlayer
          | some pattern => exact .likeEach quantifier pattern hl
      | _ => exact hlayer
  | _ => exact hlayer

end Action

/-! ### Expressions

By induction on the expression, with each part in the role that its layer gives it: what is tested
for each element may fail as a sequence, and nothing else may. -/

section

variable {n : Node} {bound : Prop}

/-- What a part has been shown to do: its values agree, and if it yields one value, so
does this. -/
def Node.SafePart (n : Node) (bound : Prop) (m : Node) : Prop :=
  (m.isScalar = true → (n.safety bound).ScalarAgree m m) ∧ (n.safety bound).ValuesAgree m m

theorem Node.SafePart.argument {m : Node} (h : n.SafePart bound m) :
    (n.safety bound).ArgumentAgree m m :=
  ⟨rfl, h.1, fun _ => h.2⟩

/-- What is tested for each element of a sequence may yield many values; the error then
names its text. -/
theorem Node.SafePart.tested {m part : Node} (h : n.SafePart bound part) (hm : n.Within m)
    (hpart : part ∈ m.form.tested) : (n.safety bound).ScalarAgree part part := by
  cases hs : part.isScalar with
  | true => exact h.1 hs
  | false =>
      rintro c c' ⟨rfl, -⟩
      have herror : (n.safety bound).left.scalar part c = .error (.notScalar part.source) :=
        scalar_of_not_isScalar hs c
      have herror' : (n.safety bound).right.scalar part c = .error (.notScalar part.source) :=
        herror
      rw [herror, herror']
      exact .error ⟨rfl, m, hm, part, hpart, hs, rfl⟩

theorem Node.SafePart.branch {m : Node} {one : Bool} (h : n.SafePart bound m)
    (hs : m.isScalar = one) : ((n.safety bound).places one).branch m m := by
  cases one with
  | true => exact h.1 hs
  | false => exact h.2

/-- A layer that keeps the discipline asks of its parts what they do. -/
theorem Form.Disciplined.lifts {m : Node} (hm : n.Within m) (h : m.form.Disciplined m.info)
    (hparts : ∀ part ∈ m.children, n.SafePart bound part) :
    m.form.Lifts ((n.safety bound).places m.isScalar) m.form := by
  obtain ⟨info, form⟩ := m
  change form.Disciplined info at h
  change ∀ part ∈ form.children, n.SafePart bound part at hparts
  change form.Lifts _ form
  -- One value is asked only of a part that the discipline says yields one, or that is tested.
  cases form with
  | constant value => exact .constant value
  | parameter name => exact .parameter name
  | documents => exact .documents
  | document entries =>
      refine .document (List.forall₂_same.mpr fun entry hentry => ⟨rfl, ?_⟩)
      have hmem := List.mem_map_of_mem (f := Prod.snd) hentry
      exact (hparts _ hmem).1 (h.2 _ hmem)
  | array items =>
      exact .array (List.forall₂_same.mpr fun item hitem => (hparts _ hitem).1 (h.2 _ hitem))
  | path root steps =>
      refine .path root (List.forall₂_same.mpr fun step hstep => ?_)
      have hpart (part : Node) (hp : part ∈ step.children) : n.SafePart bound part :=
        hparts part (List.mem_flatMap.mpr ⟨step, hstep, hp⟩)
      cases step with
      | member name => exact .member name
      | index place => exact .index place
      | indexOf part =>
          have hs : part.isScalar = true := h.2.2 part hstep
          exact .indexOf ⟨(hpart part (List.mem_singleton_self _)).1 hs, rfl, trivial⟩
      | all => exact .all
      | filter part =>
          refine .filter ((hpart part (List.mem_singleton_self _)).tested hm ?_)
          exact List.mem_flatMap.mpr ⟨_, hstep, List.mem_singleton_self _⟩
      | items => exact .items
  | map source selector =>
      exact .map (hparts source (by simp [Form.children])).2
        (hparts selector (by simp [Form.children])).argument
  | filter source predicate =>
      refine .filter (hparts source (by simp [Form.children])).2 ?_
      exact (hparts predicate (by simp [Form.children])).tested hm (List.mem_singleton_self _)
  | sort source key order =>
      refine .sort (hparts source (by simp [Form.children])).2
        ((hparts key (by simp [Form.children])).tested hm (List.mem_singleton_self _)) ?_
      cases order with
      | none => exact .none
      | some order => exact .some ((hparts order (by simp [Form.children])).1 (h.2.2 order rfl))
  | call function args =>
      exact .call function (List.forall₂_same.mpr fun arg harg => (hparts arg harg).argument)
  | generate generator site => exact .generate generator site
  | binary op left right =>
      exact .binary op ((hparts left (by simp [Form.children])).1 h.2.1)
        ((hparts right (by simp [Form.children])).1 h.2.2)
  | quantified quantifier op left right =>
      exact .quantified quantifier op (hparts left (by simp [Form.children])).2
        ((hparts right (by simp [Form.children])).1 h.2.2)
  | logic op left right =>
      exact .logic op ((hparts left (by simp [Form.children])).1 h.2.1)
        ((hparts right (by simp [Form.children])).1 h.2.2)
  | conditional test ifTrue ifFalse =>
      exact .conditional ((hparts test (by simp [Form.children])).1 h.1)
        ((hparts ifTrue (by simp [Form.children])).branch h.2.1)
        ((hparts ifFalse (by simp [Form.children])).branch h.2.2)

/-- What a node takes from a context is allowed to it. -/
theorem Node.safety_grounded (m : Node) {c : Context} (hc : bound → c.IsBound) :
    m.action.Grounded (n.safety bound).errors c c m.action := by
  have horigin (root : PathRoot) (field : String) :
      Agree (n.safety bound).errors (origin c root field) (origin c root field) := by
    refine Agree.refl_of fun e he => ⟨rfl, ?_⟩
    unfold origin at he
    cases root with
    | document =>
        cases hroot : c.root with
        | some value => simp [hroot] at he
        | none =>
            obtain rfl : EvalError.noRootDocument field = e := by simpa [hroot] using he
            exact fun hb => by simpa [hroot] using (hc hb).1
    | current =>
        cases hcurrent : c.current with
        | some value => simp [hcurrent] at he
        | none =>
            obtain rfl : EvalError.noRootDocument field = e := by simpa [hcurrent] using he
            exact fun hb => by simpa [hcurrent] using (hc hb).2
  obtain ⟨info, form⟩ := m
  refine Action.grounded_ofForm _ ?_
  cases form with
  | path root steps => exact (horigin root _).map _
  | parameter | documents | generate => rfl
  | _ => trivial

/-- The action of a node yields as many values as is known of the node. -/
theorem Node.action_yields {m : Node} (h : m.form.Disciplined m.info) :
    m.action.yields m.isScalar = true := by
  have hform := h.yields
  obtain ⟨info, form⟩ := m
  change (Action.ofForm _ form).yields info.isScalar = true
  cases form with
  | binary op left right =>
      rcases op with op | op
      · exact hform
      · cases op with
        | like =>
            simp only [Action.ofForm]
            cases Pool.patternOf? right with
            | none => exact hform
            | some pattern => exact h.1
        | _ => exact hform
  | quantified quantifier op left right =>
      cases op with
      | like =>
          simp only [Action.ofForm]
          cases Pool.patternOf? right with
          | none => exact hform
          | some pattern => exact h.1
      | _ => exact hform
  | _ => exact hform

/-- Everything within an expression that keeps the discipline is safe. -/
theorem Node.Disciplined.safePart (h : n.Disciplined) {m : Node} (hm : n.Within m) :
    n.SafePart bound m := by
  induction m using Node.induction with
  | step m ih =>
      have hlayer := h m hm
      have hlifts := Action.lifts_ofForm_self (p := Pool.patternOf?)
        (hlayer.lifts hm fun part hpart => ih part hpart (hm.part hpart))
      have hyields := Node.action_yields hlayer
      constructor
      · rintro hs c c' ⟨rfl, hc⟩
        change Agree _ (m.scalar c) (m.scalar c)
        rw [Node.scalar_eq]
        refine Setting.actionScalar_agree (T := n.safety bound) hlifts ⟨rfl, hc⟩
          (Node.safety_grounded m hc) ?_
        rintro (hone | hmany)
        · rw [hs] at hone
          cases hone
        · rw [hyields] at hmany
          cases hmany
      · rintro c c' ⟨rfl, hc⟩
        change AgreeAll _ (m.values c) (m.values c)
        rw [Node.values_eq]
        refine Setting.actionValues_agree (T := n.safety bound) hlifts ⟨rfl, hc⟩
          (Node.safety_grounded m hc) fun hmany => ?_
        rw [hyields] at hmany
        cases hmany

/-- Only errors that are allowed occur among the values of an expression. -/
theorem Node.Disciplined.allows (h : n.Disciplined) {ctx : Context} (hb : bound → ctx.IsBound)
    {e : EvalError} (he : .error e ∈ n.values ctx) : n.Allows bound e := by
  have hagree : AgreeAll (n.safety bound).errors (n.values ctx) (n.values ctx) :=
    (h.safePart .self).2 ctx ctx ⟨rfl, hb⟩
  have herror := List.forall₂_same.mp hagree (.error e) he
  cases herror with
  | error herror => exact herror.2

end

/-! ### Functions and their arguments -/

/-- There are as many arguments as the function takes, and every sequence among them is
given as one array. -/
def Builtin.Packed (function : Builtin) (args : List Value) : Prop :=
  List.Forall₂ (fun c value => c = .sequence → value.isArray = true) function.signature.params args

theorem Builtin.Packed.length {function : Builtin} {args : List Value} (h : function.Packed args) :
    args.length = function.signature.arity :=
  h.length_eq.symm

theorem Pool.arguments_packed {ν : Type} {parts : Evaluator ν} {ctx : Context}
    {params : List Cardinality} {args : List ν} {values : List Value}
    (h : List.Forall₂ (fun c arg => parts.isScalar arg = decide (c = .scalar)) params args)
    (hv : Pool.arguments parts ctx args = .ok values) :
    List.Forall₂ (fun c value => c = .sequence → value.isArray = true) params values := by
  induction h generalizing values with
  | nil =>
      cases hv
      exact .nil
  | @cons c arg _ rest harg _ ih =>
      cases c with
      | scalar =>
          simp only [Pool.arguments, harg, decide_true, if_true] at hv
          cases hvalue : parts.scalar arg ctx with
          | error e => simp [hvalue, bind, Except.bind] at hv
          | ok value =>
              cases hrest : Pool.arguments parts ctx rest with
              | error e => simp [hvalue, hrest, bind, Except.bind] at hv
              | ok others =>
                  obtain rfl : value :: others = values := by
                    simpa [hvalue, hrest, bind, Except.bind, pure, Except.pure] using hv
                  exact .cons (by simp) (ih hrest)
      | sequence =>
          simp only [Pool.arguments, harg] at hv
          cases hvalue : (parts.values arg ctx).collect with
          | error e => simp [hvalue, bind, Except.bind, Except.map] at hv
          | ok items =>
              cases hrest : Pool.arguments parts ctx rest with
              | error e => simp [hvalue, hrest, bind, Except.bind, Except.map] at hv
              | ok others =>
                  obtain rfl : .array items :: others = values := by
                    simpa [hvalue, hrest, bind, Except.bind, Except.map, pure, Except.pure]
                      using hv
                  exact .cons (fun _ => rfl) (ih hrest)

namespace Node

variable {n : Node}

/-- A call within the expression is given its arguments as the function wants them. -/
theorem Disciplined.admits (h : n.Disciplined) {m : Node} (hm : n.Within m) {function : Builtin}
    {args : List Node} (hform : m.form = .call function args) :
    List.Forall₂ Cardinality.Admits function.signature.params args := by
  have hlayer := h m hm
  rw [hform] at hlayer
  exact hlayer.2

theorem Disciplined.packed (h : n.Disciplined) {m : Node} (hm : n.Within m) {function : Builtin}
    {args : List Node} (hform : m.form = .call function args) {ctx : Context}
    {values : List Value} (hv : Pool.arguments evaluator ctx args = .ok values) :
    function.Packed values :=
  Pool.arguments_packed (h.admits hm hform) hv

/-- What is asked of the arguments of a call in a plan is what the call needs. -/
theorem Disciplined.packed_plan (h : n.Disciplined) {m : Node} (hm : n.Within m)
    {function : Builtin} {args : List Node} (hform : m.form = .call function args)
    {runs : List (Context → Except EvalError Value)}
    (hruns : args.mapM (fun arg => arg.plan.map Plan.argument) = .ok runs) {ctx : Context}
    {values : List Value} (hv : Plan.runAll runs ctx = .ok values) : function.Packed values := by
  have hargs : args.mapM (fun arg => arg.plan.map Plan.argument) =
      unlessSort (args.any usesSort) (args.map argument) := by
    have hparts : ∀ arg ∈ args,
        arg.plan.map Plan.argument = unlessSort arg.usesSort arg.argument := by
      intro arg harg
      have hpart : arg ∈ m.children := by
        rw [children, hform]
        exact harg
      rw [plan_eq (h.within (hm.part hpart))]
      exact Plan.argumentPart_part arg
    rw [← Plan.mapM_unlessSort hparts, List.mapM_map]
    rfl
  rw [hargs, unlessSort] at hruns
  split at hruns
  · cases hruns
  · cases hruns
    rw [Plan.runAll_argument] at hv
    exact h.packed hm hform hv

end Node

theorem Action.ofForm_eq_call {ν : Type} {p : ν → Option Text.Glob} {form : Form ν}
    {function : Builtin} {args : List ν} (h : ofForm p form = .layer (.call function args)) :
    form = .call function args := by
  cases form with
  | binary op left right =>
      rcases op with op | op
      · simp [ofForm] at h
      · cases op with
        | like =>
            simp only [ofForm] at h
            cases hp : p right <;> simp [hp] at h
        | _ => simp [ofForm] at h
  | quantified quantifier op left right =>
      cases op with
      | like =>
          simp only [ofForm] at h
          cases hp : p right <;> simp [hp] at h
      | _ => simp [ofForm] at h
  | call _ _ => exact Action.layer.inj h
  | _ => simp [ofForm] at h

/-- An instruction that is a call gives the function its arguments as it wants them. -/
theorem Node.Disciplined.packed_flatten {n : Node} (h : n.Disciplined) {instruction : Instruction}
    (hmem : instruction ∈ n.flatten) {function : Builtin} {args : List OpRef}
    (hop : instruction.op = .layer (.call function args)) {ctx : Context} {values : List Value}
    (hv : Pool.arguments (Pool.evaluator n.flatten) ctx args = .ok values) :
    function.Packed values := by
  obtain ⟨m, hm, hlifts, -⟩ := flatten_stems hmem
  rw [hop] at hlifts
  cases haction : m.action with
  | like quantifier left pattern =>
      rw [haction] at hlifts
      cases hlifts
  | layer form =>
      rw [haction] at hlifts
      cases hlifts with
      | layer hlifts =>
          cases hlifts with
          | @call _ _ parts hargs =>
              refine Pool.arguments_packed ?_ hv
              have hadmits := h.admits hm (Action.ofForm_eq_call haction)
              refine forall₂_trans ?_ hadmits hargs.flip
              intro c part ref hpart href
              exact href.same.isScalar.trans hpart

end DocQuery
