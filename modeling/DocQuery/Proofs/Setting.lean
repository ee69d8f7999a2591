import DocQuery.Proofs.Layers
/-!
# DocQuery.Proofs.Setting

Two evaluations of expressions side by side. A `Setting` holds two evaluators of parts,
the pairs of contexts that are compared and the errors that may stand for each other.
If the parts of two layers agree in every such pair of contexts, so do the layers:
`Setting.actionScalar_agree` and `Setting.actionValues_agree`, for one value and for a
sequence.

Three things do not come from the parts and are hypotheses of these results: what a layer
takes from the context itself (`Form.Grounded`), the error of a layer that is asked for
another number of values than it yields (`Action.yields`), and the error of a place that
is no number, which names its part.
-/

namespace DocQuery

open Pool (Evaluator origin firstField)

variable {ν μ : Type}

/-! ### What a layer yields -/

/-- One value can be asked of the layer. -/
def Form.yieldsOne : Form ν → Bool
  | .documents | .map _ _ | .filter _ _ | .sort _ _ _ => false
  | .path _ steps => !steps.any PathStep.isEnumerable
  | _ => true

/-- A sequence can be asked of the layer. -/
def Form.yieldsMany : Form ν → Bool
  | .documents | .map _ _ | .filter _ _ | .sort _ _ _ | .call _ _ | .conditional _ _ _ => true
  | .path _ steps => !steps.dropLast.any PathStep.isEnumerable
  | _ => false

/-- The layer can be asked for one value, or else for a sequence. -/
def Form.yields (form : Form ν) (one : Bool) : Bool :=
  if one then form.yieldsOne else form.yieldsMany

/-- The action can be asked for one value, or else for a sequence. -/
def Action.yields (one : Bool) : Action ν → Bool
  | .layer form => form.yields one
  | .like _ _ _ => one

/-- What a path starts from once its first field has been read. Nothing else of the beginning of
a path is ever looked at. -/
def entrance (c : Context) (root : PathRoot) (field : String) : Except EvalError Value :=
  (origin c root field).map fun value => value.member field

/-- What two layers take from two contexts is the same. The beginnings of paths need
only agree. -/
def Form.Grounded (K : ErrorRel) (c c' : Context) : Form ν → Form μ → Prop
  | .parameter name, _ => c.parameter name = c'.parameter name
  | .documents, _ => c.documents = c'.documents
  | .generate generator site, _ => generator.value site c = generator.value site c'
  | .path root steps, .path root' steps' =>
    Agree K (entrance c root (firstField steps)) (entrance c' root' (firstField steps'))
  | _, _ => True

/-- What two actions take from two contexts is the same. -/
def Action.Grounded (K : ErrorRel) (c c' : Context) : Action ν → Action μ → Prop
  | .layer form, .layer form' => form.Grounded K c c' form'
  | _, _ => True

/-- Two evaluators side by side, with the contexts in which they are compared. -/
structure Setting (ν μ : Type) where
  left : Evaluator ν
  right : Evaluator μ
  errors : ErrorRel
  contexts : Context → Context → Prop
  errors_about : ∀ e, e.aboutValues = true → errors e e
  contexts_collation : ∀ {c c'}, contexts c c' → c.collation = c'.collation
  contexts_withCurrent : ∀ {c c'} (v : Value), contexts c c' →
    contexts (c.withCurrent v) (c'.withCurrent v)

namespace Setting

/-- Two evaluators side by side in the same context. -/
def together (P : Evaluator ν) (Q : Evaluator μ) (K : ErrorRel)
    (h : ∀ e, e.aboutValues = true → K e e) : Setting ν μ where
  left := P
  right := Q
  errors := K
  contexts := Eq
  errors_about := h
  contexts_collation h := by rw [h]
  contexts_withCurrent _ h := by rw [h]

variable (T : Setting ν μ)

/-! ### What is asked of the parts

A layer asks a part for one value, for a sequence, or for whichever it yields; each of these is an
agreement in all pairs of contexts, since parts are also evaluated in contexts that the layer makes.
-/

/-- The one value of each of two parts agrees. -/
def ScalarAgree (a : ν) (b : μ) : Prop :=
  ∀ c c', T.contexts c c' → Agree T.errors (T.left.scalar a c) (T.right.scalar b c')

/-- The values of two parts agree. -/
def ValuesAgree (a : ν) (b : μ) : Prop :=
  ∀ c c', T.contexts c c' → AgreeAll T.errors (T.left.values a c) (T.right.values b c')

/-- Two parts yield the same number of values, and these agree. -/
def ArgumentAgree (a : ν) (b : μ) : Prop :=
  T.left.isScalar a = T.right.isScalar b ∧
    (T.left.isScalar a = true → T.ScalarAgree a b) ∧
    (T.left.isScalar a = false → T.ValuesAgree a b)

/-- Two places agree, also where neither is a number. -/
def IndexAgree (a : ν) (b : μ) : Prop :=
  T.ScalarAgree a b ∧
    T.errors (.indexNotNumber (T.left.source a)) (.indexNotNumber (T.right.source b))

/-- What the parts of two layers have to satisfy if one value is asked of the layers, or
else a sequence. -/
def places (one : Bool) : Places ν μ where
  scalar := T.ScalarAgree
  sequence := T.ValuesAgree
  argument := T.ArgumentAgree
  branch := if one then T.ScalarAgree else T.ValuesAgree
  index := T.IndexAgree

variable {T}

theorem agree_of_about {α : Type} {x : Except EvalError α} (h : FailsOnValues x) :
    Agree T.errors x x :=
  Agree.refl_of fun e he => T.errors_about e (h e he)

/-! ### Paths -/

/-- A list that goes place by place with one that has a last element has one itself. -/
theorem forall₂_concat_left {α β : Type} {R : α → β → Prop} {init : List α} {last : α}
    {l : List β} (h : List.Forall₂ R (init ++ [last]) l) :
    ∃ init' last', l = init' ++ [last'] ∧ List.Forall₂ R init init' ∧ R last last' := by
  induction init generalizing l with
  | nil =>
      cases h with
      | cons hlast hnil =>
          cases hnil with
          | nil => exact ⟨[], _, rfl, .nil, hlast⟩
  | cons a rest ih =>
      cases h with
      | cons ha hrest =>
          obtain ⟨init', last', rfl, hinit, hlast⟩ := ih hrest
          exact ⟨_ :: init', last', rfl, .cons ha hinit, hlast⟩

section

variable {one : Bool} {c c' : Context} {source source' : String}

/-- A step of one value, taken from the same value, leads to values that agree. -/
theorem follow_agree {steps : List (PathStep ν)} {steps' : List (PathStep μ)}
    (h : List.Forall₂ (PathStep.Lifts (T.places one)) steps steps') (hc : T.contexts c c')
    (hn : steps.any PathStep.isEnumerable = true →
      T.errors (.notScalar source) (.notScalar source')) (value : Value) :
    Agree T.errors (Pool.follow T.left source c value steps)
      (Pool.follow T.right source' c' value steps') := by
  induction h generalizing value with
  | nil => exact .ok value
  | cons hstep _ ih =>
      cases hstep with
      | member name => exact ih (by simpa [PathStep.isEnumerable] using hn) _
      | index place => exact ih (by simpa [PathStep.isEnumerable] using hn) _
      | indexOf hplace =>
          have hrest := ih (by simpa [PathStep.isEnumerable] using hn)
          refine (hplace.1 c c' hc).bind fun index => Agree.bind ?_ hrest
          unfold Value.elementAt
          cases index.place? with
          | some place => exact .ok _
          | none => exact .error hplace.2
      | all | filter _ | items => exact .error (hn (by simp [PathStep.isEnumerable]))

/-- The steps behind the first field. -/
def beyond {ξ : Type} : List (PathStep ξ) → List (PathStep ξ)
  | .member _ :: rest => rest
  | steps => steps

/-- A last step of many values is no field, so the first field is that of the steps before. -/
theorem firstField_concat {ξ : Type} {last : PathStep ξ} (h : last.isEnumerable = true)
    (init : List (PathStep ξ)) : firstField (init ++ [last]) = firstField init := by
  cases init with
  | nil =>
      cases last with
      | all | filter _ | items => rfl
      | member _ | index _ | indexOf _ => cases h
  | cons step rest => cases step <;> rfl

theorem resolve_eq {ξ : Type} (parts : Evaluator ξ) (root : PathRoot) (steps : List (PathStep ξ)) :
    Pool.resolve parts source c root steps (firstField steps) =
      entrance c root (firstField steps) >>= fun value =>
        Pool.follow parts source c value (beyond steps) := by
  unfold Pool.resolve entrance
  cases origin c root (firstField steps) with
  | error e => rfl
  | ok value =>
      cases steps with
      | nil => rfl
      | cons step rest => cases step <;> rfl

theorem resolve_agree {steps : List (PathStep ν)} {steps' : List (PathStep μ)}
    {root root' : PathRoot}
    (h : List.Forall₂ (PathStep.Lifts (T.places one)) steps steps') (hc : T.contexts c c')
    (ho : Agree T.errors (entrance c root (firstField steps))
      (entrance c' root' (firstField steps')))
    (hn : steps.any PathStep.isEnumerable = true →
      T.errors (.notScalar source) (.notScalar source')) :
    Agree T.errors (Pool.resolve T.left source c root steps (firstField steps))
      (Pool.resolve T.right source' c' root' steps' (firstField steps')) := by
  rw [resolve_eq, resolve_eq]
  refine ho.bind fun value => ?_
  cases h with
  | nil => exact .ok value
  | cons hstep hrest =>
      cases hstep with
      | member name => exact follow_agree hrest hc (by simpa [PathStep.isEnumerable] using hn) value
      | index place => exact follow_agree (.cons (.index place) hrest) hc hn value
      | indexOf hplace => exact follow_agree (.cons (.indexOf hplace) hrest) hc hn value
      | all => exact follow_agree (.cons .all hrest) hc hn value
      | filter hcondition => exact follow_agree (.cons (.filter hcondition) hrest) hc hn value
      | items => exact follow_agree (.cons .items hrest) hc hn value

end

/-! ### Parts one after the other

The first part that fails ends the evaluation, on both sides at the same part and with errors that
may stand for each other. -/

section

variable {one : Bool} {c c' : Context}

theorem arguments_agree {args : List ν} {args' : List μ}
    (h : List.Forall₂ T.ArgumentAgree args args') (hc : T.contexts c c') :
    Agree T.errors (Pool.arguments T.left c args) (Pool.arguments T.right c' args') := by
  induction h with
  | nil => exact .ok []
  | @cons a b _ _ harg _ ih =>
      obtain ⟨hscalar, hone, hmany⟩ := harg
      have hrest (value : Value) : Agree T.errors _ _ := ih.bind fun rest => .ok (value :: rest)
      cases ha : T.left.isScalar a with
      | true =>
          simp only [Pool.arguments, ← hscalar, ha, if_true]
          exact (hone ha c c' hc).bind hrest
      | false =>
          simp only [Pool.arguments, ← hscalar, ha, Bool.false_eq_true, if_false]
          exact ((hmany ha c c' hc).collect.map Value.array).bind hrest

theorem invoke_agree (function : Builtin) {args : List ν} {args' : List μ}
    (h : List.Forall₂ T.ArgumentAgree args args') (hc : T.contexts c c') :
    Agree T.errors (Pool.invoke T.left c function args)
      (Pool.invoke T.right c' function args') := by
  refine (arguments_agree h hc).bind fun values => ?_
  rw [T.contexts_collation hc]
  exact agree_of_about (Builtin.apply_about _ _ _)

theorem entryValues_agree {entries : List (String × ν)} {entries' : List (String × μ)}
    (h : List.Forall₂ (fun a b => a.1 = b.1 ∧ T.ScalarAgree a.2 b.2) entries entries')
    (hc : T.contexts c c') :
    Agree T.errors (Pool.entryValues T.left c entries)
      (Pool.entryValues T.right c' entries') := by
  induction h with
  | nil => exact .ok []
  | cons hentry _ ih =>
      obtain ⟨hname, hpart⟩ := hentry
      unfold Pool.entryValues
      refine (hpart c c' hc).bind fun value => ih.bind fun rest => ?_
      rw [hname]
      exact .ok _

theorem itemValues_agree {items : List ν} {items' : List μ}
    (h : List.Forall₂ T.ScalarAgree items items') (hc : T.contexts c c') :
    Agree T.errors (Pool.itemValues T.left c items) (Pool.itemValues T.right c' items') := by
  induction h with
  | nil => exact .ok []
  | cons hitem _ ih => exact (hitem c c' hc).bind fun value => ih.bind fun rest => .ok _

theorem operate_agree (collation : Collation) (op : BinaryOp) (a b : Value) :
    Agree T.errors (Pool.operate collation op a b) (Pool.operate collation op a b) := by
  cases op with
  | arithmetic op => exact agree_of_about (Arithmetic.apply_about op a b)
  | comparison op =>
      exact agree_of_about ((Comparison.apply_failsAs collation op a b).map _).onValues

end

/-! ### Layers and actions -/

section

variable {c c' : Context} {source source' : String}

theorem formScalar_agree {form : Form ν} {form' : Form μ} (h : form.Lifts (T.places true) form')
    (hc : T.contexts c c') (hg : form.Grounded T.errors c c' form')
    (hn : form.yieldsOne = false → T.errors (.notScalar source) (.notScalar source')) :
    Agree T.errors (Pool.stepScalar T.left source (.layer form) c)
      (Pool.stepScalar T.right source' (.layer form') c') := by
  have hcol := T.contexts_collation hc
  -- The parts agree by hypothesis, so each operation agrees as it combines what they yield.
  cases h with
  | constant value => exact .ok value
  | parameter name =>
      simp only [Pool.stepScalar, show c.parameter name = c'.parameter name from hg]
      exact .ok _
  | documents => exact .error (hn rfl)
  | document h => exact (entryValues_agree h hc).map _
  | array h => exact (itemValues_agree h hc).map _
  | path root h =>
      exact resolve_agree h hc hg fun hany => hn (by simp [Form.yieldsOne, hany])
  | map _ _ => exact .error (hn rfl)
  | filter _ _ => exact .error (hn rfl)
  | sort _ _ _ => exact .error (hn rfl)
  | call function h => exact (invoke_agree function h hc).map _
  | generate generator site =>
      simp only [Pool.stepScalar, show generator.value site c = generator.value site c' from hg]
      exact .ok _
  | binary op hl hr =>
      refine (hl c c' hc).bind fun a => (hr c c' hc).bind fun b => ?_
      rw [hcol]
      exact operate_agree _ op a b
  | quantified quantifier op hl hr =>
      refine (hr c c' hc).bind fun b => Agree.bind ?_ fun holds => .ok _
      rw [hcol]
      exact (hl c c' hc).holds quantifier fun a => agree_of_about (Comparison.apply_about _ _ _ _)
  | logic op hl hr =>
      refine (hl c c' hc).bind fun a => ?_
      cases op <;> cases a.isTrue <;>
        first
          | exact .ok _
          | exact (hr c c' hc).bind fun b => .ok _
  | conditional ht hi hf =>
      refine (ht c c' hc).bind fun test => ?_
      by_cases h : test.isTrue = true
      · rw [if_pos h, if_pos h]
        exact hi c c' hc
      · rw [if_neg h, if_neg h]
        exact hf c c' hc

theorem pathValues_agree {root root' : PathRoot} {steps : List (PathStep ν)}
    {steps' : List (PathStep μ)}
    (h : List.Forall₂ (PathStep.Lifts (T.places false)) steps steps') (hc : T.contexts c c')
    (ho : Agree T.errors (entrance c root (firstField steps))
      (entrance c' root' (firstField steps')))
    (hn : steps.dropLast.any PathStep.isEnumerable = true →
      T.errors (.notScalar source) (.notScalar source')) :
    AgreeAll T.errors (Pool.pathValues T.left source c root steps)
      (Pool.pathValues T.right source' c' root' steps') := by
  -- The last steps are the same, so the paths end in the same way.
  rcases List.eq_nil_or_concat' steps with rfl | ⟨init, last, rfl⟩
  · have hone : Agree T.errors (Pool.resolve T.left source c root [] _)
        (Pool.resolve T.right source' c' root' steps' _) := resolve_agree h hc ho (by rintro ⟨⟩)
    cases h with
    | nil => exact AgreeAll.ofOne hone
  · obtain ⟨init', last', rfl, hinit, hlast⟩ := forall₂_concat_left h
    rw [List.dropLast_concat] at hn
    have hbefore (hmany : last.isEnumerable = true) (hmany' : last'.isEnumerable = true) :
        Agree T.errors (Pool.resolve T.left source c root init (firstField (init ++ [last])))
          (Pool.resolve T.right source' c' root' init' (firstField (init' ++ [last']))) := by
      rw [firstField_concat hmany, firstField_concat hmany'] at ho ⊢
      exact resolve_agree hinit hc ho hn
    simp only [Pool.pathValues, List.dropLast_concat, List.getLast?_concat]
    cases hlast with
    | member name | index place | indexOf _ =>
        refine AgreeAll.ofOne (resolve_agree h hc ho fun hany => hn ?_)
        simpa [PathStep.isEnumerable] using hany
    | all =>
        exact AgreeAll.ofExcept ((hbefore rfl rfl).map _)
    | items =>
        exact AgreeAll.ofExcept ((hbefore rfl rfl).map _)
    | filter hcondition =>
        have hbefore := hbefore rfl rfl
        generalize Pool.resolve T.left source c root init _ = x,
          Pool.resolve T.right source' c' root' init' _ = y at hbefore
        cases hbefore with
        | error he => exact AgreeAll.failed he
        | ok value =>
            exact (AgreeAll.ofValues _).keep fun element =>
              hcondition _ _ (T.contexts_withCurrent element hc)

theorem sortedValues_agree {a key : ν} {b key' : μ} {order : Option ν} {order' : Option μ}
    (hs : T.ValuesAgree a b) (hk : T.ScalarAgree key key')
    (ho : Option.Rel T.ScalarAgree order order') (hc : T.contexts c c') :
    Agree T.errors (Pool.sortedValues T.left c a key order)
      (Pool.sortedValues T.right c' b key' order') := by
  have hrest (descending : Bool) : Agree T.errors
      ((T.left.values a c).sortBy c.collation descending fun element =>
        T.left.scalar key (c.withCurrent element))
      ((T.right.values b c').sortBy c'.collation descending fun element =>
        T.right.scalar key' (c'.withCurrent element)) := by
    rw [T.contexts_collation hc]
    exact (hs c c' hc).sortBy _ descending
      (fun element => hk _ _ (T.contexts_withCurrent element hc))
      fun pairs => agree_of_about (Results.sortPairs_onValues _ descending pairs)
  cases ho with
  | none => exact hrest false
  | some ho => exact ((ho c c' hc).map _).bind hrest

theorem formValues_agree {form : Form ν} {form' : Form μ} (h : form.Lifts (T.places false) form')
    (hc : T.contexts c c') (hg : form.Grounded T.errors c c' form')
    (hn : form.yieldsMany = false → T.errors (.notScalar source) (.notScalar source')) :
    AgreeAll T.errors (Pool.stepValues T.left source (.layer form) c)
      (Pool.stepValues T.right source' (.layer form') c') := by
  cases h with
  | constant | parameter | document | array | generate | binary | quantified | logic =>
      exact AgreeAll.failed (hn rfl)
  | documents =>
      simp only [Pool.stepValues, show c.documents = c'.documents from hg]
      exact AgreeAll.ofValues _
  | path root h =>
      exact pathValues_agree h hc hg fun hany => hn (by simp [Form.yieldsMany, hany])
  -- The selector yields one value or many on both sides, as the setting knows.
  | @map _ selector _ selector' hs h =>
      obtain ⟨hscalar, hone, hmany⟩ := h
      cases ha : T.left.isScalar selector with
      | true =>
          simp only [Pool.stepValues, ← hscalar, ha, if_true]
          exact (hs c c' hc).mapEach fun element =>
            hone ha _ _ (T.contexts_withCurrent element hc)
      | false =>
          simp only [Pool.stepValues, ← hscalar, ha, Bool.false_eq_true, if_false]
          exact (hs c c' hc).flatMapEach fun element =>
            hmany ha _ _ (T.contexts_withCurrent element hc)
  | filter hs h =>
      exact (hs c c' hc).keep fun element => h _ _ (T.contexts_withCurrent element hc)
  | sort hs hk ho => exact AgreeAll.ofExcept (sortedValues_agree hs hk ho hc)
  | call function h => exact AgreeAll.ofExcept ((invoke_agree function h hc).map _)
  | @conditional test _ _ test' _ _ ht hi hf =>
      have htest := ht c c' hc
      simp only [Pool.stepValues]
      -- The same branch is taken, since the tests agree in their value or in their error.
      generalize T.left.scalar test c = x, T.right.scalar test' c' = y at htest
      cases htest with
      | error he => exact AgreeAll.failed he
      | ok result =>
          by_cases h : result.isTrue = true
          · simp only [h, if_true]
            exact hi c c' hc
          · simp only [h]
            exact hf c c' hc

/-- If one value is asked of two actions with parts that agree, the results agree. -/
theorem stepScalar_agree {action : Action ν} {action' : Action μ}
    (h : action.Lifts (T.places true) action') (hc : T.contexts c c')
    (hg : action.Grounded T.errors c c' action')
    (hn : action.yields true = false → T.errors (.notScalar source) (.notScalar source')) :
    Agree T.errors (Pool.stepScalar T.left source action c)
      (Pool.stepScalar T.right source' action' c') := by
  cases h with
  | layer h => exact formScalar_agree h hc hg hn
  | like pattern hl =>
      refine (hl c c' hc).bind fun value => ?_
      rw [T.contexts_collation hc]
      exact .ok _
  | likeEach quantifier pattern hl =>
      refine Agree.map _ ?_
      rw [T.contexts_collation hc]
      exact (hl c c' hc).holds quantifier fun value => .ok _

/-- If a sequence is asked of two actions with parts that agree, the results agree. -/
theorem stepValues_agree {action : Action ν} {action' : Action μ}
    (h : action.Lifts (T.places false) action') (hc : T.contexts c c')
    (hg : action.Grounded T.errors c c' action')
    (hn : action.yields false = false → T.errors (.notScalar source) (.notScalar source')) :
    AgreeAll T.errors (Pool.stepValues T.left source action c)
      (Pool.stepValues T.right source' action' c') := by
  cases h with
  | layer h => exact formValues_agree h hc hg hn
  | like | likeEach => exact AgreeAll.failed (hn rfl)

/-- The one value of two actions agrees. -/
theorem actionScalar_agree {one : Bool} {action : Action ν} {action' : Action μ}
    (h : action.Lifts (T.places one) action') (hc : T.contexts c c')
    (hg : action.Grounded T.errors c c' action')
    (hn : one = false ∨ action.yields one = false →
      T.errors (.notScalar source) (.notScalar source')) :
    Agree T.errors (Pool.actionScalar T.left one source action c)
      (Pool.actionScalar T.right one source' action' c') := by
  cases one with
  | true => exact stepScalar_agree h hc hg fun hy => hn (.inr hy)
  | false => exact .error (hn (.inl rfl))

/-- The values of two actions agree. -/
theorem actionValues_agree {one : Bool} {action : Action ν} {action' : Action μ}
    (h : action.Lifts (T.places one) action') (hc : T.contexts c c')
    (hg : action.Grounded T.errors c c' action')
    (hn : action.yields one = false → T.errors (.notScalar source) (.notScalar source')) :
    AgreeAll T.errors (Pool.actionValues T.left one source action c)
      (Pool.actionValues T.right one source' action' c') := by
  cases one with
  | true => exact AgreeAll.ofOne (stepScalar_agree h hc hg hn)
  | false => exact stepValues_agree h hc hg hn

end

end Setting

end DocQuery
